import TinyPointerTrees.TinyPtr.DerefTable

/-!
# The size of a dereference table

The constructors of `BucketIndexer` and `DerefTable` as far as they compute sizes: a
request for buckets is rounded up in 64 bits, to a prime or to a power of two, and
the number of buckets and the capacity are narrowed to 32 bits, while the reduction
of a hash value goes on with the number that is not narrowed.

`exact_iff` — buckets, reduction and capacity fit together exactly when the request can
be rounded up to a number of buckets whose entries can be counted in 32 bits.
`Mode.toBucketIndexer` is then the indexer of the table.
-/

namespace TinyPointerTrees

/-- The table of `primes::Prime`, which holds 64-bit numbers and goes beyond 32 bits. -/
structure Primes where
  /-- `primes`. -/
  table : List ℕ
  pos : ∀ p ∈ table, 0 < p
  lt : ∀ p ∈ table, p < 2 ^ 64
  large : ∃ p ∈ table, 2 ^ 32 ≤ p

/-- `pick(n)`: the smallest number of the table that is at least `n`. -/
def Primes.pick (P : Primes) (n : ℕ) : ℕ := (P.table.filter fun p => decide (n ≤ p)).min?.getD 0

theorem Primes.pick_mem_of (P : Primes) {n p : ℕ} (hp : p ∈ P.table) (hn : n ≤ p) :
    P.pick n ∈ P.table ∧ n ≤ P.pick n := by
  have hmem : p ∈ P.table.filter fun p => decide (n ≤ p) :=
    List.mem_filter.2 ⟨hp, decide_eq_true hn⟩
  obtain ⟨m, hm⟩ : ∃ m, (P.table.filter fun p => decide (n ≤ p)).min? = some m := by
    rw [← Option.isSome_iff_exists, List.isSome_min?_iff]
    exact List.ne_nil_of_mem hmem
  have := List.mem_filter.1 (List.min?_mem hm)
  unfold Primes.pick
  rw [hm]
  exact ⟨this.1, of_decide_eq_true this.2⟩

theorem Primes.pick_mem (P : Primes) {n : ℕ} (hn : n < 2 ^ 32) :
    P.pick n ∈ P.table ∧ n ≤ P.pick n := by
  obtain ⟨p, hp, hlarge⟩ := P.large
  exact P.pick_mem_of hp (hn.le.trans hlarge)

theorem Primes.pick_le (P : Primes) {n p : ℕ} (hp : p ∈ P.table) (hn : n ≤ p) : P.pick n ≤ p := by
  have hmem : p ∈ P.table.filter fun p => decide (n ≤ p) :=
    List.mem_filter.2 ⟨hp, decide_eq_true hn⟩
  unfold Primes.pick
  cases hm : (P.table.filter fun p => decide (n ≤ p)).min? with
  | none => exact Nat.zero_le p
  | some m => exact (List.min?_eq_some_iff.1 hm).2 p hmem

/-- `std::bit_ceil`. -/
def bitCeil (n : ℕ) : ℕ := 2 ^ Nat.clog 2 n

/-- `USE_PRIMES`. -/
inductive Mode where
  /-- `USE_PRIMES = 1`. -/
  | primes (P : Primes)
  /-- `USE_PRIMES = 0`. -/
  | mask

namespace Mode

/-- The numbers of buckets to which requests are rounded up. -/
def Offers : Mode → ℕ → Prop
  | primes P, r => r ∈ P.table
  | mask, r => ∃ k, r = 2 ^ k

/-- To what a request is rounded up, in 64 bits. -/
def rounded : Mode → UInt32 → ℕ
  | primes P, n => P.pick n.toNat
  | mask, n => bitCeil n.toNat

/-- `buckets()`. -/
def buckets : Mode → UInt32 → ℕ
  | primes P, n => P.pick n.toNat % 2 ^ 32
  | mask, n => (bitCeil n.toNat - 1 + 1) % 2 ^ 64 % 2 ^ 32

/-- `operator()`. -/
def index : Mode → UInt32 → UInt64 → ℕ
  | primes P, n, hash => hash.toNat % P.pick n.toNat
  | mask, n, hash => hash.toNat &&& (bitCeil n.toNat - 1)

/-- `_capacity`. -/
def capacity (L : Layout) (m : Mode) (n : UInt32) : ℕ :=
  m.buckets n * L.entriesPerBinCount % 2 ^ 64 % 2 ^ 32

/-- There are as many buckets as are requested and at least one, hash values are reduced to one of
them, and the capacity is the number of their entries. -/
structure Exact (L : Layout) (m : Mode) (n : UInt32) : Prop where
  requested : n.toNat ≤ m.buckets n
  nonempty : 1 ≤ m.buckets n
  index_lt : ∀ hash, m.index n hash < m.buckets n
  capacity_eq : m.capacity L n = m.buckets n * L.entriesPerBinCount

/-! ### Rounding -/

variable {m : Mode} {n : UInt32}

theorem le_bitCeil (n : ℕ) : n ≤ bitCeil n := Nat.le_pow_clog (by norm_num) n

theorem bitCeil_le {n : ℕ} (hn : n < 2 ^ 32) : bitCeil n ≤ 2 ^ 32 :=
  Nat.pow_le_pow_right (by norm_num) (Nat.clog_le_of_le_pow hn.le)

theorem le_rounded (m : Mode) (n : UInt32) : n.toNat ≤ m.rounded n := by
  cases m with
  | primes P => exact (P.pick_mem n.toNat_lt).2
  | mask => exact le_bitCeil _

theorem offers_rounded (m : Mode) (n : UInt32) : m.Offers (m.rounded n) := by
  cases m with
  | primes P => exact (P.pick_mem n.toNat_lt).1
  | mask => exact ⟨_, rfl⟩

theorem rounded_le {r : ℕ} (hr : m.Offers r) (hn : n.toNat ≤ r) : m.rounded n ≤ r := by
  cases m with
  | primes P => exact P.pick_le hr hn
  | mask =>
    obtain ⟨k, rfl⟩ := hr
    exact Nat.pow_le_pow_right (by norm_num) (Nat.clog_le_of_le_pow hn)

theorem rounded_pos (m : Mode) (n : UInt32) : 0 < m.rounded n := by
  cases m with
  | primes P => exact P.pos _ (P.pick_mem n.toNat_lt).1
  | mask => exact Nat.two_pow_pos _

/-- The number of buckets is narrowed. -/
theorem buckets_eq (m : Mode) (n : UInt32) : m.buckets n = m.rounded n % 2 ^ 32 := by
  cases m with
  | primes P => rfl
  | mask =>
    have hpos : 0 < bitCeil n.toNat := Nat.two_pow_pos _
    have hle := bitCeil_le n.toNat_lt
    simp only [buckets, rounded]
    rw [Nat.sub_add_cancel hpos, Nat.mod_eq_of_lt (by omega : bitCeil n.toNat < 2 ^ 64)]

/-- The reduction is not. -/
theorem index_eq (m : Mode) (n : UInt32) (hash : UInt64) :
    m.index n hash = hash.toNat % m.rounded n := by
  cases m with
  | primes P => rfl
  | mask =>
    simp only [index, rounded, bitCeil]
    rw [Nat.and_two_pow_sub_one_eq_mod]

/-- Some hash value is reduced to the last bucket. -/
theorem exists_index_eq (m : Mode) (n : UInt32) : ∃ hash, m.index n hash = m.rounded n - 1 := by
  have hpos := m.rounded_pos n
  have hlt : m.rounded n - 1 < 2 ^ 64 := by
    cases m with
    | primes P =>
      have := P.lt _ (P.pick_mem n.toNat_lt).1
      simp only [rounded]
      omega
    | mask =>
      have := bitCeil_le n.toNat_lt
      simp only [rounded]
      omega
  refine ⟨UInt64.ofNat (m.rounded n - 1), ?_⟩
  rw [index_eq, UInt64.toNat_ofNat', Nat.mod_eq_of_lt hlt, Nat.mod_eq_of_lt (by omega)]

/-! ### Narrowing -/

/-- A reduction that stays below the number of buckets tells that it was not narrowed. -/
theorem rounded_lt_of_index_lt (h : ∀ hash, m.index n hash < m.buckets n) :
    m.rounded n < 2 ^ 32 := by
  obtain ⟨hash, hhash⟩ := m.exists_index_eq n
  have hlt := h hash
  rw [hhash, buckets_eq] at hlt
  have hmod : m.rounded n % 2 ^ 32 < 2 ^ 32 := Nat.mod_lt _ (by norm_num)
  have hle : m.rounded n % 2 ^ 32 ≤ m.rounded n := Nat.mod_le _ _
  omega

theorem capacity_eq_iff (L : Layout) : m.capacity L n = m.buckets n * L.entriesPerBinCount ↔
    m.buckets n * L.entriesPerBinCount < 2 ^ 32 := by
  unfold capacity
  rw [Nat.mod_mod_of_dvd _ (by norm_num : 2 ^ 32 ∣ 2 ^ 64)]
  constructor
  · intro h
    rw [← h]
    exact Nat.mod_lt _ (by norm_num)
  · exact Nat.mod_eq_of_lt

theorem rounded_mul_lt_iff (L : Layout) : m.rounded n * L.entriesPerBinCount < 2 ^ 32 ↔
    ∃ r, m.Offers r ∧ n.toNat ≤ r ∧ r * L.entriesPerBinCount < 2 ^ 32 := by
  constructor
  · intro h
    exact ⟨_, m.offers_rounded n, m.le_rounded n, h⟩
  · rintro ⟨r, hr, hn, h⟩
    exact (Nat.mul_le_mul_right _ (rounded_le hr hn)).trans_lt h

/-- Nothing is narrowed when the entries of the buckets can be counted in 32 bits. -/
theorem exact_of_rounded {L : Layout} (h : m.rounded n * L.entriesPerBinCount < 2 ^ 32) :
    m.Exact L n := by
  have hle : m.rounded n ≤ m.rounded n * L.entriesPerBinCount :=
    Nat.le_mul_of_pos_right _ L.entriesPerBinCount_pos
  have hbuckets : m.buckets n = m.rounded n := by
    rw [buckets_eq, Nat.mod_eq_of_lt (hle.trans_lt h)]
  refine ⟨?_, ?_, fun hash => ?_, ?_⟩
  · rw [hbuckets]
    exact m.le_rounded n
  · rw [hbuckets]
    exact m.rounded_pos n
  · rw [hbuckets, index_eq]
    exact Nat.mod_lt _ (m.rounded_pos n)
  · rw [capacity_eq_iff, hbuckets]
    exact h

/-- Sizes fit together exactly when the request can be rounded up to a number of buckets whose
entries can be counted in 32 bits. -/
theorem exact_iff (L : Layout) (m : Mode) (n : UInt32) :
    m.Exact L n ↔ ∃ r, m.Offers r ∧ n.toNat ≤ r ∧ r * L.entriesPerBinCount < 2 ^ 32 := by
  rw [← rounded_mul_lt_iff]
  constructor
  · intro h
    have hlt := rounded_lt_of_index_lt h.index_lt
    have hbuckets : m.buckets n = m.rounded n := by rw [buckets_eq, Nat.mod_eq_of_lt hlt]
    rw [← hbuckets]
    exact (capacity_eq_iff L).1 h.capacity_eq
  · exact exact_of_rounded

/-- A request for more than `2 ^ 31` buckets is rounded to a power of two of which nothing is
left. -/
theorem not_exact : ¬∀ (L : Layout) (m : Mode) (n : UInt32), m.Exact L n := by
  intro h
  have hone := (h (.byte 0 (by decide)) .mask 2147483649).nonempty
  rw [buckets_eq] at hone
  have hclog : Nat.clog 2 2147483649 = 32 :=
    le_antisymm (Nat.clog_le_of_le_pow (by norm_num))
      ((Nat.lt_clog_iff_pow_lt (by norm_num)).2 (by norm_num))
  simp [rounded, bitCeil, hclog] at hone

/-- The indexer of a table whose sizes fit together. -/
def toBucketIndexer {L : Layout} (h : m.Exact L n) : BucketIndexer where
  buckets := m.buckets n
  index := m.index n
  buckets_lt := by
    rw [buckets_eq]
    exact Nat.mod_lt _ (by norm_num)
  index_lt := h.index_lt

end Mode

end TinyPointerTrees
