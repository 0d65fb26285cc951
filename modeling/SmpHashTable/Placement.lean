import SmpHashTable.Lib.Residues
import SmpHashTable.Table

/-!
# The placement of keys

`hash_get_server` and `hash_get_bucket` reduce the same key modulo the number of servers and
modulo the number of buckets.  `init_hash_partition` rounds the number of buckets so that the two
have no common divisor; here that is proved for every size and every number of servers, with what
follows for the pairs of server and bucket.
-/

namespace SmpHashTable

/-! ### The rounding -/

/-- The number of buckets is one less than a multiple of the number of servers. -/
theorem initNhash_add_one (maxSize nservers : ℕ) :
    initNhash maxSize nservers + 1
      = -(-(max 10 (intOfWord (maxSize / BUCKET_LOAD))) / nservers) * nservers := by
  unfold initNhash
  omega

theorem initNhash_covers (maxSize nservers : ℕ) (h : 0 < nservers) :
    intOfWord (maxSize / BUCKET_LOAD) ≤ initNhash maxSize nservers + 1 := by
  have hmax : intOfWord (maxSize / BUCKET_LOAD) ≤ max 10 (intOfWord (maxSize / BUCKET_LOAD)) := by
    unfold max
    split <;> omega
  have hceil : -(max 10 (intOfWord (maxSize / BUCKET_LOAD))) / (nservers : ℤ) * nservers
      ≤ -(max 10 (intOfWord (maxSize / BUCKET_LOAD))) := Int.ediv_mul_le _ (by omega)
  rw [initNhash_add_one, Int.neg_mul]
  omega

/-- Rounding up to a multiple of the divisor adds less than the divisor, and gives the divisor
itself when that is at least the dividend. -/
theorem ceil_mul_lt {x n : ℤ} (hn : 0 < n) : -(-x / n) * n < x + n := by
  have hlt := Int.lt_ediv_add_one_mul_self (-x) hn
  rw [Int.add_mul] at hlt
  rw [Int.neg_mul]
  omega

theorem ceil_mul_of_le {x n : ℤ} (hx : 0 < x) (h : x ≤ n) : -(-x / n) * n = n := by
  have hquot : -x / n = -1 := by
    rw [Int.ediv_eq_iff_of_pos (by omega)]
    omega
  rw [hquot]
  omega

theorem intOfWord_eq {w : ℕ} (h : w < 2 ^ 31) : intOfWord w = w := by
  unfold intOfWord
  rw [Nat.mod_eq_of_lt (show w < 2 ^ 32 from by omega), if_pos h]

/-- The conversion of the rounded quotient to `int` is exact. -/
theorem initNhash_lt {maxSize nservers : ℕ} (h : 0 < nservers)
    (hfit : maxSize / BUCKET_LOAD + nservers ≤ 2 ^ 31 - 1) : initNhash maxSize nservers < 2 ^ 31 := by
  have hround := initNhash_add_one maxSize nservers
  generalize maxSize / BUCKET_LOAD = q at hround hfit
  rw [intOfWord_eq (by omega)] at hround
  unfold max at hround
  split at hround
  · -- the minimum of ten buckets: one more server than ten can only be the divisor itself
    by_cases hbig : (10 : ℤ) ≤ nservers
    · rw [ceil_mul_of_le (by omega) hbig] at hround
      omega
    · have := ceil_mul_lt (x := 10) (show (0 : ℤ) < nservers by omega)
      omega
  · have := ceil_mul_lt (x := q) (show (0 : ℤ) < nservers by omega)
    omega

/-! ### Servers and buckets -/

section

variable {maxSize nservers : ℕ} {evictalgo : Evictalgo}

theorem initHashPartition_nhash (h : 0 < nservers) :
    ((initHashPartition maxSize nservers evictalgo).nhash : ℤ) = initNhash maxSize nservers := by
  have hge := initNhash_ge maxSize nservers h
  show ((initNhash maxSize nservers).toNat : ℤ) = initNhash maxSize nservers
  omega

/-- The number of servers divides the number of buckets plus one. -/
theorem initHashPartition_coprime (h : 0 < nservers) :
    Nat.Coprime nservers (initHashPartition maxSize nservers evictalgo).nhash := by
  have hdvd : nservers ∣ (initHashPartition maxSize nservers evictalgo).nhash + 1 := by
    rw [← Int.natCast_dvd_natCast, Int.natCast_add, initHashPartition_nhash h, Int.natCast_one,
      initNhash_add_one]
    exact Int.dvd_mul_left _ _
  exact Nat.Coprime.coprime_dvd_left hdvd (Nat.coprime_self_add_left.mpr (Nat.coprime_one_left _))

end

/-- **Keys are placed without bias (proved).**  The rounded number of buckets fits an `int`, is at
least nine, covers the size and has no divisor in common with the number of servers; in a window of
`nservers * nhash` consecutive keys every server meets every one of its buckets exactly once, and in
`w` such windows `w` times. -/
theorem placement_unbiased (maxSize nservers : ℕ) (evictalgo : Evictalgo) (hn : 1 ≤ nservers)
    (hfit : maxSize / BUCKET_LOAD + nservers ≤ 2 ^ 31 - 1) :
    let p := initHashPartition maxSize nservers evictalgo
    9 ≤ p.nhash ∧ p.nhash < 2 ^ 31 ∧ maxSize / BUCKET_LOAD ≤ p.nhash + 1 ∧
      Nat.gcd p.nhash nservers = 1 ∧
      ∀ a s b, s < nservers → b < p.nhash →
        (∃! key, (a ≤ key ∧ key < a + nservers * p.nhash) ∧
          hashGetServer nservers key = s ∧ hashGetBucket p key = b) ∧
        ∀ w, ((Finset.Ico a (a + w * (nservers * p.nhash))).filter
          fun key => hashGetServer nservers key = s ∧ hashGetBucket p key = b).card = w := by
  intro p
  have hnhash : (p.nhash : ℤ) = initNhash maxSize nservers := initHashPartition_nhash hn
  have hcop : Nat.Coprime nservers p.nhash := initHashPartition_coprime hn
  have hge := initNhash_ge maxSize nservers hn
  have hlt := initNhash_lt hn hfit
  have hcovers := initNhash_covers maxSize nservers hn
  rw [intOfWord_eq (by omega)] at hcovers
  refine ⟨by omega, by omega, ?_, hcop.symm, ?_⟩
  · generalize maxSize / BUCKET_LOAD = q at hcovers ⊢
    omega
  intro a s b hs hb
  exact ⟨Residues.exists_unique hcop a hs hb, fun w => Residues.card_windows hcop a w hs hb⟩

/-- A partition of one mebibyte among six servers. -/
theorem placement_unbiased_six :
    Nat.gcd (initHashPartition 1048576 6 .lru).nhash 6 = 1 ∧
      ∃! key, (0 ≤ key ∧ key < 0 + 6 * (initHashPartition 1048576 6 .lru).nhash) ∧
        hashGetServer 6 key = 5 ∧ hashGetBucket (initHashPartition 1048576 6 .lru) key = 8 := by
  obtain ⟨hnine, -, -, hgcd, hpair⟩ :=
    placement_unbiased 1048576 6 .lru (by decide) (by decide)
  exact ⟨hgcd, (hpair 0 5 8 (by decide) (by omega)).1⟩

end SmpHashTable
