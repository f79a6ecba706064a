import Mathlib

/-!
# snarky-bn382: the 384-bit integer stubs

A `BigInteger384` is six 64-bit limbs, least significant first.  The stubs
convert to and from `BigUint` through memory: `bigint_of_biginteger` reads
the `BIGINT_NUM_BYTES` bytes of the limb array with `BigUint::from_bytes_le`,
and `biginteger_of_bigint` takes `BigUint::to_bytes_le`, resizes it to
`BIGINT_NUM_BYTES` bytes (dropping the high bytes) and reads the buffer as
`[u64; BIGINT_NUM_LIMBS]`.  Reading a `u64` from memory is modelled for a
little-endian target.

**Model.**  Bytes are `UInt8`, limbs `UInt64`, `BigUint`s natural numbers.
The two `BigUint` byte conversions of the external crate are modelled from
their documented contract (`fromBytesLE`, `toBytesLE`); division by a zero
`BigUint` panics (`none`).

**Results.**
* `bytes_bigintegerOfBigint`: the limbs of `biginteger_of_bigint n` lie in
  memory as the low `BIGINT_NUM_BYTES` little-endian bytes of `n`.
* `bigintOfBiginteger_eq_val`: `bigint_of_biginteger` reads the value
  `Σ_k limb_k * 2^(64 k)` of the limbs.
* `biginteger_round_trip`: the two conversions are inverse up to
  `mod 2^384`, and `camlsnark_bn382_bigint_div` returns the limbs of the
  quotient of the values.
-/

namespace SnarkyBn382

open BigOperators

/-- `BIGINT_NUM_BITS`. -/
def bigintNumBits : Nat := 384

/-- `BIGINT_LIMB_BITS`. -/
def bigintLimbBits : Nat := 64

/-- `BIGINT_NUM_LIMBS`: enough limbs for `BIGINT_NUM_BITS` bits. -/
def bigintNumLimbs : Nat := (bigintNumBits + bigintLimbBits - 1) / bigintLimbBits

/-- `BIGINT_NUM_BYTES`. -/
def bigintNumBytes : Nat := bigintNumLimbs * 8

/-- `camlsnark_bn382_bigint_num_limbs`, computed again from the constants. -/
def camlsnarkBn382BigintNumLimbs : Nat := (bigintNumBits + bigintLimbBits - 1) / bigintLimbBits

/-- `camlsnark_bn382_bigint_bytes_per_limb`. -/
def camlsnarkBn382BigintBytesPerLimb : Nat := bigintLimbBits / 8

-- The two exported sizes describe the buffer the conversions read, and the
-- limbs hold `BIGINT_NUM_BITS` bits.
example :
    camlsnarkBn382BigintNumLimbs * camlsnarkBn382BigintBytesPerLimb = bigintNumBytes ∧
      bigintNumLimbs = 6 ∧ bigintNumBytes = 48 ∧
      bigintNumLimbs * bigintLimbBits = bigintNumBits :=
  ⟨rfl, rfl, rfl, rfl⟩

/-- `BigInteger384`: `[u64; BIGINT_NUM_LIMBS]`, least significant limb
first. -/
@[ext]
structure BigInteger384 where
  limbs : List UInt64
  length_limbs : limbs.length = bigintNumLimbs

/-- The value of the limbs, `Σ_{k < 6} limb_k * 2^(64 k)`. -/
def BigInteger384.val (x : BigInteger384) : Nat :=
  ∑ k in Finset.range bigintNumLimbs, (x.limbs.getD k 0).toNat * 2 ^ (64 * k)

section Bytes

/-- The low `w` bytes of `n`, least significant first. -/
def natToBytesLE : Nat → Nat → List UInt8
  | 0, _ => []
  | w + 1, n => UInt8.ofNat n :: natToBytesLE w (n / 256)

/-- Modelled from the crate's contract: `BigUint::from_bytes_le`, the number
with the given little-endian bytes. -/
def fromBytesLE : List UInt8 → Nat
  | [] => 0
  | b :: bytes => b.toNat + 256 * fromBytesLE bytes

/-- Modelled from the crate's contract: `BigUint::to_bytes_le`, the shortest
little-endian bytes of `n`, `[0]` for zero. -/
def toBytesLE (n : Nat) : List UInt8 :=
  if n = 0 then [0] else (Nat.digits 256 n).map UInt8.ofNat

/-- `Vec::resize(new_len, value)`: truncate, or pad with `value`. -/
def resize (bytes : List UInt8) (newLen : Nat) (value : UInt8) : List UInt8 :=
  bytes.take newLen ++ List.replicate (newLen - bytes.length) value

/-- The eight bytes of a `u64` in memory on a little-endian target. -/
def limbBytes (x : UInt64) : List UInt8 :=
  natToBytesLE 8 x.toNat

/-- A byte buffer read as `[u64; k]` on a little-endian target. -/
def limbsOfBytes : Nat → List UInt8 → List UInt64
  | 0, _ => []
  | k + 1, bytes => UInt64.ofNat (fromBytesLE (bytes.take 8)) :: limbsOfBytes k (bytes.drop 8)

@[simp] theorem toNat_uint8_ofNat
    (n : Nat) :
    (UInt8.ofNat n).toNat = n % 256 := by
  simp [UInt8.ofNat, UInt8.toNat]

@[simp] theorem length_natToBytesLE :
    ∀ w n, (natToBytesLE w n).length = w
  | 0, _ => rfl
  | w + 1, n => by rw [natToBytesLE, List.length_cons, length_natToBytesLE w]

@[simp] theorem length_limbsOfBytes :
    ∀ k bytes, (limbsOfBytes k bytes).length = k
  | 0, _ => rfl
  | k + 1, bytes => by rw [limbsOfBytes, List.length_cons, length_limbsOfBytes k]

@[simp] theorem length_limbBytes
    (x : UInt64) :
    (limbBytes x).length = 8 :=
  length_natToBytesLE 8 _

@[simp] theorem length_resize
    (bytes : List UInt8) (newLen : Nat) (value : UInt8) :
    (resize bytes newLen value).length = newLen := by
  simp only [resize, List.length_append, List.length_take, List.length_replicate]
  omega

theorem fromBytesLE_append :
    ∀ l₁ l₂ : List UInt8, fromBytesLE (l₁ ++ l₂) = fromBytesLE l₁ + 256 ^ l₁.length * fromBytesLE l₂
  | [], l₂ => by simp [fromBytesLE]
  | b :: l₁, l₂ => by
      rw [List.cons_append, fromBytesLE, fromBytesLE, fromBytesLE_append l₁, List.length_cons,
        pow_succ']
      ring

theorem fromBytesLE_lt :
    ∀ bytes : List UInt8, fromBytesLE bytes < 256 ^ bytes.length
  | [] => Nat.one_pos
  | b :: bytes => by
      have hb : b.toNat < 256 := b.toNat_lt
      have := fromBytesLE_lt bytes
      rw [fromBytesLE, List.length_cons, pow_succ']
      omega

theorem fromBytesLE_replicate_zero :
    ∀ k, fromBytesLE (List.replicate k 0) = 0
  | 0 => rfl
  | k + 1 => by rw [List.replicate_succ, fromBytesLE, fromBytesLE_replicate_zero k]; rfl

theorem fromBytesLE_eq_ofDigits :
    ∀ bytes : List UInt8, fromBytesLE bytes = Nat.ofDigits 256 (bytes.map UInt8.toNat)
  | [] => rfl
  | b :: bytes => by rw [fromBytesLE, List.map_cons, Nat.ofDigits_cons, fromBytesLE_eq_ofDigits]

/-- Writing the low `w` bytes and reading them back keeps `n mod 256^w`. -/
theorem fromBytesLE_natToBytesLE :
    ∀ w n, fromBytesLE (natToBytesLE w n) = n % 256 ^ w
  | 0, n => by rw [natToBytesLE, fromBytesLE, pow_zero, Nat.mod_one]
  | w + 1, n => by
      rw [natToBytesLE, fromBytesLE, fromBytesLE_natToBytesLE w, toNat_uint8_ofNat, pow_succ',
        Nat.mod_mul]

/-- Reading bytes and writing back as many bytes gives them again. -/
theorem natToBytesLE_fromBytesLE :
    ∀ bytes : List UInt8, natToBytesLE bytes.length (fromBytesLE bytes) = bytes
  | [] => rfl
  | b :: bytes => by
      have hb : b.toNat < 256 := b.toNat_lt
      rw [List.length_cons, natToBytesLE, fromBytesLE,
        show (b.toNat + 256 * fromBytesLE bytes) / 256 = fromBytesLE bytes by omega,
        natToBytesLE_fromBytesLE bytes]
      congr 1
      exact UInt8.toNat.inj (by rw [toNat_uint8_ofNat]; omega)

theorem natToBytesLE_mod
    (w n : Nat) :
    natToBytesLE w (n % 256 ^ w) = natToBytesLE w n := by
  have h := natToBytesLE_fromBytesLE (natToBytesLE w n)
  rwa [length_natToBytesLE, fromBytesLE_natToBytesLE] at h

/-- The first `n` bytes hold the value `mod 256^n`. -/
theorem fromBytesLE_take
    (bytes : List UInt8) (n : Nat) :
    fromBytesLE (bytes.take n) = fromBytesLE bytes % 256 ^ n := by
  rcases le_or_lt n bytes.length with h | h
  · have hlt := fromBytesLE_lt (bytes.take n)
    rw [List.length_take, min_eq_left h] at hlt
    conv_rhs => rw [← List.take_append_drop n bytes, fromBytesLE_append, List.length_take,
      min_eq_left h, Nat.add_mul_mod_self_left, Nat.mod_eq_of_lt hlt]
  · rw [List.take_of_length_le h.le, Nat.mod_eq_of_lt
      ((fromBytesLE_lt bytes).trans_le (Nat.pow_le_pow_right (by norm_num) h.le))]

theorem fromBytesLE_toBytesLE
    (n : Nat) :
    fromBytesLE (toBytesLE n) = n := by
  unfold toBytesLE
  split
  · next h => rw [h]; rfl
  · have hd : ∀ d ∈ Nat.digits 256 n, (UInt8.toNat ∘ UInt8.ofNat) d = d := fun d hd => by
      simp [Nat.mod_eq_of_lt (Nat.digits_lt_base (by norm_num) hd)]
    rw [fromBytesLE_eq_ofDigits, List.map_map, List.map_congr_left hd, List.map_id',
      Nat.ofDigits_digits]

/-- `to_bytes_le` resized to `w` bytes is the low `w` bytes of `n`. -/
theorem resize_toBytesLE
    (n w : Nat) :
    resize (toBytesLE n) w 0 = natToBytesLE w n := by
  have h := natToBytesLE_fromBytesLE (resize (toBytesLE n) w 0)
  rw [length_resize, resize, fromBytesLE_append, fromBytesLE_replicate_zero, Nat.mul_zero,
    Nat.add_zero, fromBytesLE_take, fromBytesLE_toBytesLE, natToBytesLE_mod] at h
  exact h.symm

end Bytes

section Limbs

theorem fromBytesLE_limbBytes
    (x : UInt64) :
    fromBytesLE (limbBytes x) = x.toNat := by
  rw [limbBytes, fromBytesLE_natToBytesLE, Nat.mod_eq_of_lt (by simpa using x.toNat_lt)]

theorem length_flatMap_limbBytes :
    ∀ limbs : List UInt64, (limbs.flatMap limbBytes).length = 8 * limbs.length
  | [] => rfl
  | x :: limbs => by
      rw [List.flatMap_cons, List.length_append, length_limbBytes, length_flatMap_limbBytes limbs,
        List.length_cons]
      ring

/-- In memory the limbs are the base-`2^64` digits of their value. -/
theorem fromBytesLE_flatMap_limbBytes :
    ∀ limbs : List UInt64,
      fromBytesLE (limbs.flatMap limbBytes) = Nat.ofDigits (2 ^ 64) (limbs.map UInt64.toNat)
  | [] => rfl
  | x :: limbs => by
      rw [List.flatMap_cons, fromBytesLE_append, fromBytesLE_limbBytes, length_limbBytes,
        fromBytesLE_flatMap_limbBytes limbs, List.map_cons, Nat.ofDigits_cons]
      norm_num

/-- Reading the limbs' bytes back as limbs gives the limbs. -/
theorem limbsOfBytes_flatMap_limbBytes :
    ∀ limbs : List UInt64, limbsOfBytes limbs.length (limbs.flatMap limbBytes) = limbs
  | [] => rfl
  | x :: limbs => by
      rw [List.length_cons, limbsOfBytes, List.flatMap_cons, List.take_left' (length_limbBytes x),
        List.drop_left' (length_limbBytes x), fromBytesLE_limbBytes,
        limbsOfBytes_flatMap_limbBytes limbs,
        UInt64.ext (UInt64.toNat_ofNat_of_lt x.toNat_lt_size)]

/-- A buffer of `8 k` bytes read as `k` limbs lies in memory as itself. -/
theorem flatMap_limbsOfBytes :
    ∀ (k : Nat) (bytes : List UInt8), bytes.length = 8 * k →
      (limbsOfBytes k bytes).flatMap limbBytes = bytes
  | 0, bytes, h => by rw [List.length_eq_zero.1 h]; rfl
  | k + 1, bytes, h => by
      have h8 : (bytes.take 8).length = 8 := by rw [List.length_take]; omega
      have hread := natToBytesLE_fromBytesLE (bytes.take 8)
      have hlt : fromBytesLE (bytes.take 8) < UInt64.size := by
        simpa [h8] using fromBytesLE_lt (bytes.take 8)
      rw [h8] at hread
      rw [limbsOfBytes, List.flatMap_cons, flatMap_limbsOfBytes k _ (by rw [List.length_drop]; omega),
        limbBytes, UInt64.toNat_ofNat_of_lt hlt, hread, List.take_append_drop]

theorem sum_getD_eq_ofDigits
    (b : Nat) :
    ∀ limbs : List UInt64,
      ∑ k in Finset.range limbs.length, (limbs.getD k 0).toNat * b ^ k =
        Nat.ofDigits b (limbs.map UInt64.toNat)
  | [] => by simp
  | x :: limbs => by
      rw [List.length_cons, Finset.sum_range_succ', List.map_cons, Nat.ofDigits_cons,
        ← sum_getD_eq_ofDigits b limbs, Finset.mul_sum, Nat.add_comm]
      simp only [List.getD_cons_succ, List.getD_cons_zero, pow_zero, Nat.mul_one, pow_succ]
      congr 1
      exact Finset.sum_congr rfl fun k _ => by ring

theorem val_eq_ofDigits
    (x : BigInteger384) :
    x.val = Nat.ofDigits (2 ^ 64) (x.limbs.map UInt64.toNat) := by
  simp only [BigInteger384.val, pow_mul, ← x.length_limbs, sum_getD_eq_ofDigits]

theorem length_flatMap_limbs
    (x : BigInteger384) :
    (x.limbs.flatMap limbBytes).length = bigintNumBytes := by
  rw [length_flatMap_limbBytes, x.length_limbs, bigintNumBytes, Nat.mul_comm]

end Limbs

/-- `bigint_of_biginteger`: the `BIGINT_NUM_BYTES` bytes of the limb array,
read by `BigUint::from_bytes_le`. -/
def bigintOfBiginteger (x : BigInteger384) : Nat :=
  fromBytesLE ((x.limbs.flatMap limbBytes).take bigintNumBytes)

/-- `biginteger_of_bigint`: the bytes of `x` resized to `BIGINT_NUM_BYTES`,
dropping the high bytes, and read as `[u64; BIGINT_NUM_LIMBS]`. -/
def bigintegerOfBigint (x : Nat) : BigInteger384 :=
  ⟨limbsOfBytes bigintNumLimbs (resize (toBytesLE x) bigintNumBytes 0),
    length_limbsOfBytes _ _⟩

/-- `camlsnark_bn382_bigint_div`; `none` where the `BigUint` division by zero
panics. -/
def camlsnarkBn382BigintDiv (x y : BigInteger384) : Option BigInteger384 :=
  let d := bigintOfBiginteger y
  if d = 0 then none else some (bigintegerOfBigint (bigintOfBiginteger x / d))

theorem pow_bigintNumBytes :
    256 ^ bigintNumBytes = 2 ^ 384 := by
  rw [show (256 : Nat) = 2 ^ 8 by norm_num, ← pow_mul, show 8 * bigintNumBytes = 384 from rfl]

theorem bigintOfBiginteger_eq_val
    (x : BigInteger384) :
    bigintOfBiginteger x = x.val := by
  rw [bigintOfBiginteger, List.take_of_length_le (length_flatMap_limbs x).le,
    fromBytesLE_flatMap_limbBytes, val_eq_ofDigits]

theorem val_lt
    (x : BigInteger384) :
    x.val < 2 ^ 384 := by
  have h := fromBytesLE_lt (x.limbs.flatMap limbBytes)
  rwa [length_flatMap_limbs, fromBytesLE_flatMap_limbBytes, ← val_eq_ofDigits,
    pow_bigintNumBytes] at h

/-- In memory, `biginteger_of_bigint n` is the low `BIGINT_NUM_BYTES` bytes
of `n`, least significant first. -/
theorem bytes_bigintegerOfBigint
    (n : Nat) :
    (bigintegerOfBigint n).limbs.flatMap limbBytes = natToBytesLE bigintNumBytes n := by
  rw [bigintegerOfBigint, flatMap_limbsOfBytes _ _ (by rw [length_resize]; rfl),
    resize_toBytesLE]

theorem bigintOfBiginteger_bigintegerOfBigint
    (n : Nat) :
    bigintOfBiginteger (bigintegerOfBigint n) = n % 2 ^ 384 := by
  rw [bigintOfBiginteger, bytes_bigintegerOfBigint, List.take_of_length_le (by simp),
    fromBytesLE_natToBytesLE, pow_bigintNumBytes]

theorem val_bigintegerOfBigint
    (n : Nat) :
    (bigintegerOfBigint n).val = n % 2 ^ 384 := by
  rw [← bigintOfBiginteger_eq_val, bigintOfBiginteger_bigintegerOfBigint]

theorem bigintegerOfBigint_bigintOfBiginteger
    (x : BigInteger384) :
    bigintegerOfBigint (bigintOfBiginteger x) = x := by
  ext1
  show limbsOfBytes bigintNumLimbs (resize (toBytesLE (bigintOfBiginteger x)) bigintNumBytes 0) =
    x.limbs
  rw [resize_toBytesLE, bigintOfBiginteger, List.take_of_length_le (length_flatMap_limbs x).le,
    ← length_flatMap_limbs x, natToBytesLE_fromBytesLE, ← x.length_limbs,
    limbsOfBytes_flatMap_limbBytes]

/-- On a little-endian target the two conversions are inverse up to
`mod 2^384`, and the division stub returns the limbs of the quotient of the
values. -/
theorem biginteger_round_trip :
    (∀ n : Nat, (bigintegerOfBigint n).val = n % 2 ^ 384 ∧
        bigintOfBiginteger (bigintegerOfBigint n) = n % 2 ^ 384) ∧
      (∀ x : BigInteger384, bigintOfBiginteger x = x.val ∧
        bigintegerOfBigint (bigintOfBiginteger x) = x) ∧
      ∀ x y : BigInteger384, y.val ≠ 0 →
        ∃ q, camlsnarkBn382BigintDiv x y = some q ∧ q.val = x.val / y.val := by
  refine ⟨fun n => ⟨val_bigintegerOfBigint n, bigintOfBiginteger_bigintegerOfBigint n⟩,
    fun x => ⟨bigintOfBiginteger_eq_val x, bigintegerOfBigint_bigintOfBiginteger x⟩,
    fun x y hy => ⟨bigintegerOfBigint (x.val / y.val), ?_, ?_⟩⟩
  · simp only [camlsnarkBn382BigintDiv, bigintOfBiginteger_eq_val, if_neg hy]
  · rw [val_bigintegerOfBigint, Nat.mod_eq_of_lt ((Nat.div_le_self _ _).trans_lt (val_lt x))]

theorem biginteger_round_trip_seven :
    ∃ q, camlsnarkBn382BigintDiv (bigintegerOfBigint 7) (bigintegerOfBigint 2) = some q ∧
      q.val = (bigintegerOfBigint 7).val / (bigintegerOfBigint 2).val :=
  biginteger_round_trip.2.2 _ _ (by
    rw [val_bigintegerOfBigint, Nat.mod_eq_of_lt
      ((Nat.lt_two_pow 2).trans_le (Nat.pow_le_pow_right Nat.two_pos (by norm_num)))]
    decide)

end SnarkyBn382
