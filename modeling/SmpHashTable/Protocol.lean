import SmpHashTable.Table

/-!
# Messages and the operations a server decodes

A request is one or two words: the opcode or-ed above a 60-bit key or address, and for an insert
the size.  `decodeAt` is the `switch` of `hash_table_server` as far as it reads the batch;
`serverOp` is what its cases do to the partition.
-/

namespace SmpHashTable

def HASHOP_MASK : ℕ := 0xF000000000000000
def HASHOP_LOOKUP : ℕ := 0x1000000000000000
def HASHOP_INSERT : ℕ := 0x2000000000000000
def HASHOP_RELEASE : ℕ := 0x3000000000000000
def INSERT_MSG_LENGTH : ℕ := 2

/-- `w & HASHOP_MASK`. -/
def opcodeOf (w : ℕ) : ℕ := w &&& HASHOP_MASK

/-- `w & (~HASHOP_MASK)`. -/
def operandOf (w : ℕ) : ℕ := w &&& (2 ^ 64 - 1 - HASHOP_MASK)

/-- What a client sends.  `release` and `markReady` have the same words; they differ in whether the
client flushes, and in what the caller means by them. -/
inductive Msg
  | lookup (key : ℕ)
  | insert (key : ℕ) (size : ℤ)
  | release (e : ℕ)
  | markReady (e : ℕ)
  deriving DecidableEq, Repr

/-- An operation as the server sees it. -/
inductive Op
  | lookup (key : ℕ)
  | insert (key : ℕ) (size : ℤ)
  | release (e : ℕ)
  deriving DecidableEq, Repr

/-- The key of a request. -/
def Msg.key : Msg → ℕ
  | .lookup key => key
  | .insert key _ => key
  | .release _ => 0
  | .markReady _ => 0

/-- The words of a message. -/
def Msg.words : Msg → List ℕ
  | .lookup key => [key ||| HASHOP_LOOKUP]
  | .insert key size => [key ||| HASHOP_INSERT, wordOfInt size]
  | .release e => [e ||| HASHOP_RELEASE]
  | .markReady e => [e ||| HASHOP_RELEASE]

/-- The operation a message stands for; the size goes through a 64-bit word into an `int`. -/
def Msg.op : Msg → Op
  | .lookup key => .lookup key
  | .insert key size => .insert key (intOfWord (wordOfInt size))
  | .release e => .release e
  | .markReady e => .release e

/-- Lookups and inserts are answered. -/
def Op.isRequest : Op → Bool
  | .lookup _ => true
  | .insert _ _ => true
  | .release _ => false

def Msg.isRequest (m : Msg) : Bool := m.op.isRequest

/-- The `switch` of the server at position `k` of its buffer: the operation and the number of words
it takes, or `none` for the `default: assert(0)` case. -/
def decodeAt (buf : ℕ → ℕ) (k : ℕ) : Option (Op × ℕ) :=
  if opcodeOf (buf k) = HASHOP_LOOKUP then some (.lookup (operandOf (buf k)), 1)
  else if opcodeOf (buf k) = HASHOP_INSERT then
    some (.insert (operandOf (buf k)) (intOfWord (buf (k + 1))), INSERT_MSG_LENGTH)
  else if opcodeOf (buf k) = HASHOP_RELEASE then some (.release (operandOf (buf k)), 1)
  else none

/-- `(unsigned long)e->value`. -/
def valuePtr (e : ℕ) : ℕ := e + sizeofElem

/-- The cases of the server's `switch`: the table afterwards, the response if there is one, and the
elements removed from the partition. -/
def serverOp (t : Table) (s : ℕ) (o : Oracle) : Op → Except Stop (Table × Option ℕ × List Removal)
  | .lookup key =>
      let (found, p) := hashLookup (t.part s) t.mem key
      match found with
      | some e =>
          if isValueReady t.mem e then
            .ok (t.setPart s p
              (t.mem.setElem e { t.mem.elem e with refCount := add64 (t.mem.elem e).refCount 1 }),
              some (valuePtr e), [])
          else .ok (t.setPart s p t.mem, some 0, [])
      | none => .ok (t.setPart s p t.mem, some 0, [])
  | .insert key size => do
      let r ← hashInsert (t.part s) t.mem key size mpRelease o
      return (t.setPart s r.p
        (r.m.setElem r.e { r.m.elem r.e with refCount := DATA_READY_MASK ||| 2 }),
        some (valuePtr r.e), r.removed)
  | .release e => do
      let m ← mpReleaseValue_ t.mem e
      return ({ t with mem := m }, none, [])

/-! ### Opcode and operand of a packed word -/

theorem opcodeOf_eq (w : ℕ) : opcodeOf w = w / 2 ^ 60 % 16 * 2 ^ 60 :=
  BitField.and_field w 60 4

theorem operandOf_eq (w : ℕ) : operandOf w = w % 2 ^ 60 :=
  Nat.and_two_pow_sub_one_eq_mod w 60

theorem operandOf_lt (key : ℕ) : operandOf key < 2 ^ 60 := by
  rw [operandOf_eq]
  exact Nat.mod_lt _ (by decide)

theorem opcodeOf_or (x c : ℕ) : opcodeOf (x ||| c * 2 ^ 60) = (x / 2 ^ 60 ||| c) % 16 * 2 ^ 60 := by
  rw [opcodeOf_eq, BitField.or_field_div]

theorem operandOf_or (x c : ℕ) : operandOf (x ||| c * 2 ^ 60) = x % 2 ^ 60 := by
  rw [operandOf_eq, BitField.or_field_mod]

theorem operandOf_of_lt {x : ℕ} (c : ℕ) (h : x < 2 ^ 60) : operandOf (x ||| c * 2 ^ 60) = x := by
  rw [operandOf_or, Nat.mod_eq_of_lt h]

theorem opcodeOf_of_lt {x c : ℕ} (h : x < 2 ^ 60) (hc : c < 16) :
    opcodeOf (x ||| c * 2 ^ 60) = c * 2 ^ 60 := by
  rw [opcodeOf_or, Nat.div_eq_of_lt h, Nat.zero_or, Nat.mod_eq_of_lt hc]

/-! ### Valid messages -/

/-- Keys and addresses of 60 bits, and a size word that is not the end marker. -/
def Msg.Valid : Msg → Prop
  | .lookup key => key < 2 ^ 60
  | .insert key size => key < 2 ^ 60 ∧ wordOfInt size ≠ 0
  | .release e => e < 2 ^ 60
  | .markReady e => e < 2 ^ 60

instance : (m : Msg) → Decidable m.Valid
  | .lookup _ => inferInstanceAs (Decidable (_ < _))
  | .insert _ _ => inferInstanceAs (Decidable (_ ∧ _))
  | .release _ => inferInstanceAs (Decidable (_ < _))
  | .markReady _ => inferInstanceAs (Decidable (_ < _))

theorem Msg.words_length_pos (m : Msg) : 0 < m.words.length := by
  cases m <;> simp [Msg.words]

theorem Msg.words_length_le (m : Msg) : m.words.length ≤ 2 := by
  cases m <;> simp [Msg.words]

theorem or_ne_zero {x c : ℕ} (hc : c ≠ 0) : x ||| c ≠ 0 := by
  intro h
  exact hc (Nat.or_eq_zero_iff.mp h).2

theorem Msg.words_ne_zero {m : Msg} (h : m.Valid) : ∀ w ∈ m.words, w ≠ 0 := by
  intro w hw
  cases m with
  | lookup key =>
      rw [List.mem_singleton.mp hw]
      exact or_ne_zero (by decide)
  | insert key size =>
      rcases List.mem_cons.mp hw with rfl | hw
      · exact or_ne_zero (by decide)
      · rw [List.mem_singleton.mp hw]
        exact h.2
  | release e =>
      rw [List.mem_singleton.mp hw]
      exact or_ne_zero (by decide)
  | markReady e =>
      rw [List.mem_singleton.mp hw]
      exact or_ne_zero (by decide)

/-- **Decoding inverts encoding** at any position of the buffer. -/
theorem decodeAt_words {buf : ℕ → ℕ} {k : ℕ} {m : Msg} (h : m.Valid)
    (hbuf : ∀ i (hi : i < m.words.length), buf (k + i) = m.words.get ⟨i, hi⟩) :
    decodeAt buf k = some (m.op, m.words.length) := by
  have h0 := hbuf 0 m.words_length_pos
  rw [Nat.add_zero] at h0
  cases m with
  | lookup key =>
      have hw : buf k = key ||| 1 * 2 ^ 60 := h0
      rw [decodeAt, hw, opcodeOf_of_lt h (by decide), operandOf_of_lt 1 h]
      rfl
  | insert key size =>
      have hw : buf k = key ||| 2 * 2 ^ 60 := h0
      have hs : buf (k + 1) = wordOfInt size := hbuf 1 (by simp [Msg.words])
      rw [decodeAt, hw, hs, opcodeOf_of_lt h.1 (by decide), operandOf_of_lt 2 h.1]
      rfl
  | release e =>
      have hw : buf k = e ||| 3 * 2 ^ 60 := h0
      rw [decodeAt, hw, opcodeOf_of_lt h (by decide), operandOf_of_lt 3 h]
      rfl
  | markReady e =>
      have hw : buf k = e ||| 3 * 2 ^ 60 := h0
      rw [decodeAt, hw, opcodeOf_of_lt h (by decide), operandOf_of_lt 3 h]
      rfl

/-- Every message takes a word at least. -/
theorem decodeAt_pos {buf : ℕ → ℕ} {k w : ℕ} {op : Op} (h : decodeAt buf k = some (op, w)) : 0 < w := by
  unfold decodeAt at h
  split at h
  · cases h
    exact Nat.one_pos
  · split at h
    · cases h
      decide
    · split at h
      · cases h
        exact Nat.one_pos
      · cases h

end SmpHashTable
