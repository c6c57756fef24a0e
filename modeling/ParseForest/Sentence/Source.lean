/-! # A source of random choices

A source holds a tape of random words, handed out in turn, and zeros ever after.

A choice among `k` items multiplies a word of `w` bits by `k`.  The quotient of the product by
`2 ^ w` is an index below `k`, and the word counts only if the remainder is below `k * 2 ^ s`,
where `2 ^ s` is the greatest power of two for which this still fits into `w` bits.  Then each
index is reached by exactly `2 ^ s` words that count.  A word that does not count is passed over
and the next one is taken.  A zero counts, so a choice always ends.

Words have 32 bits, or as many as it takes to write `k`. -/

namespace ParseForest

/-- The words still to come, and how many have been taken, zeros included. -/
structure Source where
  tape : List Nat
  taken : Nat
deriving DecidableEq, Repr

namespace Source

/-- A source that has handed out nothing yet. -/
def ofTape (tape : List Nat) : Source :=
  ⟨tape, 0⟩

/-- The number of bits of a word for a choice among `k`. -/
def wordBits (k : Nat) : Nat :=
  max 32 (k.log2 + 1)

/-- A word times `k`. -/
def product (k word : Nat) : Nat :=
  word % Nat.pow 2 (wordBits k) * k

/-- The index a word stands for. -/
def index (k word : Nat) : Nat :=
  product k word / Nat.pow 2 (wordBits k)

/-- The first remainder that does not count: `k` shifted until it fills a word. -/
def limit (k : Nat) : Nat :=
  k * Nat.pow 2 (wordBits k - (k.log2 + 1))

/-- Whether a word counts. -/
def counts (k word : Nat) : Bool :=
  product k word % Nat.pow 2 (wordBits k) < limit k

/-- The index chosen among `k` from a tape, when `taken` words have been taken before. -/
def pickFrom (k : Nat) : (tape : List Nat) → (taken : Nat) → Nat × Source
  | [], taken => (0, ⟨[], taken + 1⟩)
  | word :: rest, taken =>
    if counts k word then (index k word, ⟨rest, taken + 1⟩) else pickFrom k rest (taken + 1)

/-- A choice among `k` items, by index. -/
def pick (k : Nat) (source : Source) : Nat × Source :=
  pickFrom k source.tape source.taken

/-! ### Choices stay in range -/

theorem index_lt {k : Nat} (hk : 0 < k) (word : Nat) : index k word < k := by
  have hpow : 0 < Nat.pow 2 (wordBits k) := Nat.two_pow_pos _
  have hw : word % Nat.pow 2 (wordBits k) < Nat.pow 2 (wordBits k) := Nat.mod_lt _ hpow
  rw [index, product, Nat.div_lt_iff_lt_mul hpow, Nat.mul_comm k]
  exact Nat.mul_lt_mul_of_pos_right hw hk

theorem pickFrom_lt {k : Nat} (hk : 0 < k) (tape : List Nat) (taken : Nat) :
    (pickFrom k tape taken).1 < k := by
  induction tape generalizing taken with
  | nil => exact hk
  | cons word rest ih =>
    rw [pickFrom]
    split
    · exact index_lt hk word
    · exact ih (taken + 1)

theorem pick_lt {k : Nat} (hk : 0 < k) (source : Source) : (source.pick k).1 < k :=
  pickFrom_lt hk source.tape source.taken

end Source

end ParseForest
