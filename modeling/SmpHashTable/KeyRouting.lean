import Mathlib.Data.Nat.ModEq
import Mathlib.Tactic.IntervalCases
import SmpHashTable.Protocol

/-!
# The top four bits of a key

`smp_hash_lookup` and `smp_hash_insert` or the opcode into the key as they receive it and reduce the
same unmasked key modulo the number of servers; only the server masks the top four bits out.  The
thesis says these bits are ignored.  This module compares a call with the call on the masked key, for
every 64-bit key, and says exactly for which keys they agree.
-/

namespace SmpHashTable

/-- Decode the words of one message as the server does. -/
def decodeWords (ws : List ℕ) : Option (Op × ℕ) := decodeAt (fun i => ws.getD i 0) 0

/-- Decode one message and execute it on server `s`. -/
def execWords (t : Table) (s : ℕ) (o : Oracle) (ws : List ℕ) :
    Except Stop (Table × Option ℕ × List Removal) :=
  match decodeWords ws with
  | some (op, _) => serverOp t s o op
  | none => .error .assertFailed

/-- The server that `mp_send_release_msg_` picks for a value pointer. -/
def releaseServer (t : Table) (v : ℕ) : ℕ :=
  hashGetServer t.nservers (t.mem.elem (v - sizeofElem)).key

/-- The call that sends `msg key` does not depend on the top four bits of `key`: same server, same
decoded operation, same result and table, and a pointer obtained goes back to that server. -/
structure IgnoresTopBits (nservers key : ℕ) (msg : ℕ → Msg) : Prop where
  server : hashGetServer nservers key = hashGetServer nservers (operandOf key)
  decoded : decodeWords (msg key).words = decodeWords (msg (operandOf key)).words
  result : ∀ (t : Table) (o : Oracle), t.nservers = nservers →
    execWords t (hashGetServer nservers key) o (msg key).words
      = execWords t (hashGetServer nservers (operandOf key)) o (msg (operandOf key)).words
  release : ∀ (t t' : Table) (o : Oracle) (v : ℕ) (rs : List Removal), t.nservers = nservers →
    execWords t (hashGetServer nservers key) o (msg key).words = .ok (t', some v, rs) → v ≠ 0 →
    releaseServer t' v = hashGetServer nservers key

/-- The keys of the elements a server returns are the keys it decoded. -/
theorem serverOp_lookup_key {t t' : Table} {s key v : ℕ} {o : Oracle} {rs : List Removal}
    (h : serverOp t s o (.lookup key) = .ok (t', some v, rs)) (hv : v ≠ 0) :
    (t'.mem.elem (v - sizeofElem)).key = key ∧ t'.nservers = t.nservers := by
  simp only [serverOp] at h
  split at h
  · next e hfound =>
    split at h
    · simp only [Except.ok.injEq, Prod.mk.injEq, Option.some.injEq] at h
      obtain ⟨rfl, rfl, -⟩ := h
      have hkey : (t.mem.elem e).key = key := by
        unfold hashLookup at hfound
        split at hfound
        · next hf =>
          cases hfound
          simpa using List.find?_some hf
        · cases hfound
      simp [valuePtr, Table.setPart, hkey]
    · simp only [Except.ok.injEq, Prod.mk.injEq, Option.some.injEq] at h
      exact absurd h.2.1.symm hv
  · simp only [Except.ok.injEq, Prod.mk.injEq, Option.some.injEq] at h
    exact absurd h.2.1.symm hv

theorem serverOp_insert_key {t t' : Table} {s key v : ℕ} {size : ℤ} {o : Oracle} {rs : List Removal}
    (h : serverOp t s o (.insert key size) = .ok (t', some v, rs)) :
    (t'.mem.elem (v - sizeofElem)).key = key ∧ t'.nservers = t.nservers := by
  obtain ⟨r, hins, h⟩ := Outcome.bind_ok.mp h
  simp only [Outcome.pure_ok, Except.ok.injEq, Prod.mk.injEq, Option.some.injEq] at h
  obtain ⟨rfl, rfl, -⟩ := h
  rw [hashInsert_eq] at hins
  obtain ⟨x, -, hins⟩ := Outcome.bind_ok.mp hins
  obtain ⟨y, -, hins⟩ := Outcome.bind_ok.mp hins
  simp only [Except.ok.injEq] at hins
  subst hins
  simp [valuePtr, Table.setPart, linkElem]

/-! ### Routing -/

/-- The masked and the unmasked key go to the same server exactly if the number of servers divides
what the mask removes. -/
theorem hashGetServer_operandOf (nservers key : ℕ) :
    hashGetServer nservers key = hashGetServer nservers (operandOf key) ↔
      nservers ∣ key / 2 ^ 60 * 2 ^ 60 := by
  have hle : key % 2 ^ 60 ≤ key := Nat.mod_le key (2 ^ 60)
  have hdiff : key - key % 2 ^ 60 = key / 2 ^ 60 * 2 ^ 60 := by omega
  rw [hashGetServer, hashGetServer, operandOf_eq, eq_comm, ← hdiff]
  exact Nat.modEq_iff_dvd' hle

/-! ### Decoding -/

/-- A lookup word is decoded as a lookup exactly if the top bits are 0 or those of the opcode. -/
theorem decode_lookup_iff {key : ℕ} (hkey : key < 2 ^ 64) :
    decodeWords (Msg.lookup key).words = decodeWords (Msg.lookup (operandOf key)).words ↔
      key / 2 ^ 60 = 0 ∨ key / 2 ^ 60 = 1 := by
  have hmasked : decodeWords (Msg.lookup (operandOf key)).words
      = some (.lookup (operandOf key), 1) :=
    decodeAt_words (m := .lookup (operandOf key)) (operandOf_lt key)
      (fun i hi => by simp [Msg.words] at hi; subst hi; rfl)
  have hop : opcodeOf (key ||| HASHOP_LOOKUP) = (key / 2 ^ 60 ||| 1) % 16 * 2 ^ 60 := opcodeOf_or key 1
  have hoperand : operandOf (key ||| HASHOP_LOOKUP) = operandOf key :=
    (operandOf_or key 1).trans (operandOf_eq key).symm
  have hlt : key / 2 ^ 60 < 16 := by omega
  rw [hmasked]
  show decodeAt (fun i => [key ||| HASHOP_LOOKUP].getD i 0) 0 = _ ↔ _
  simp only [decodeAt, List.getD_cons_zero, hop, hoperand]
  generalize key / 2 ^ 60 = c at hlt
  interval_cases c <;> simp [HASHOP_LOOKUP, HASHOP_INSERT, HASHOP_RELEASE]

/-- An insert word is decoded as an insert exactly if the top bits are 0 or those of the opcode. -/
theorem decode_insert_iff {key : ℕ} (hkey : key < 2 ^ 64) (size : ℤ) :
    decodeWords (Msg.insert key size).words = decodeWords (Msg.insert (operandOf key) size).words ↔
      key / 2 ^ 60 = 0 ∨ key / 2 ^ 60 = 2 := by
  have hop : ∀ x, opcodeOf (x ||| HASHOP_INSERT) = (x / 2 ^ 60 ||| 2) % 16 * 2 ^ 60 := fun x =>
    opcodeOf_or x 2
  have hoperand : ∀ x, operandOf (x ||| HASHOP_INSERT) = x % 2 ^ 60 := fun x => operandOf_or x 2
  have hlt : key / 2 ^ 60 < 16 := by omega
  have hzero : operandOf key / 2 ^ 60 = 0 := Nat.div_eq_of_lt (operandOf_lt key)
  have hmod : operandOf key % 2 ^ 60 = key % 2 ^ 60 := by
    rw [operandOf_eq, Nat.mod_mod]
  show decodeAt (fun i => [key ||| HASHOP_INSERT, wordOfInt size].getD i 0) 0
    = decodeAt (fun i => [operandOf key ||| HASHOP_INSERT, wordOfInt size].getD i 0) 0 ↔ _
  simp only [decodeAt, List.getD_cons_zero, hop, hoperand, hzero, hmod]
  generalize key / 2 ^ 60 = c at hlt
  interval_cases c <;> simp [HASHOP_LOOKUP, HASHOP_INSERT, HASHOP_RELEASE]

/-! ### When the top bits are ignored -/

/-- Equal words and equal servers make the calls equal; what is left is where a pointer goes back. -/
theorem ignoresTopBits_of_words {nservers key : ℕ} {msg : ℕ → Msg}
    (hserver : hashGetServer nservers key = hashGetServer nservers (operandOf key))
    (hdecoded : decodeWords (msg key).words = decodeWords (msg (operandOf key)).words)
    (hkey : ∀ {t t' : Table} {s v : ℕ} {o : Oracle} {rs : List Removal},
      execWords t s o (msg (operandOf key)).words = .ok (t', some v, rs) → v ≠ 0 →
      (t'.mem.elem (v - sizeofElem)).key = operandOf key ∧ t'.nservers = t.nservers) :
    IgnoresTopBits nservers key msg := by
  have hresult : ∀ (t : Table) (s : ℕ) (o : Oracle),
      execWords t s o (msg key).words = execWords t s o (msg (operandOf key)).words := by
    intro t s o
    rw [execWords, execWords, hdecoded]
  refine ⟨hserver, hdecoded, ?_, ?_⟩
  · intro t o _
    rw [hresult, hserver]
  · intro t t' o v rs hn hexec hv
    rw [hresult] at hexec
    obtain ⟨hk, hn'⟩ := hkey hexec hv
    rw [releaseServer, hk, hn', hn, hserver]

theorem execWords_lookup (t : Table) (s : ℕ) (o : Oracle) {key : ℕ} (h : key < 2 ^ 60) :
    execWords t s o (Msg.lookup key).words = serverOp t s o (.lookup key) := by
  have hd : decodeWords (Msg.lookup key).words = some (.lookup key, 1) :=
    decodeAt_words (m := .lookup key) h (fun i hi => by simp [Msg.words] at hi; subst hi; rfl)
  rw [execWords, hd]

theorem execWords_insert (t : Table) (s : ℕ) (o : Oracle) {key : ℕ} {size : ℤ} (h : key < 2 ^ 60) :
    execWords t s o (Msg.insert key size).words
      = serverOp t s o (.insert key (intOfWord (wordOfInt size))) := by
  have hop : opcodeOf (key ||| HASHOP_INSERT) = HASHOP_INSERT := opcodeOf_of_lt (c := 2) h (by decide)
  have hoperand : operandOf (key ||| HASHOP_INSERT) = key := operandOf_of_lt 2 h
  have hd : decodeWords (Msg.insert key size).words
      = some (.insert key (intOfWord (wordOfInt size)), 2) := by
    show decodeAt (fun i => [key ||| HASHOP_INSERT, wordOfInt size].getD i 0) 0 = _
    simp only [decodeAt, List.getD_cons_zero, hop, hoperand]
    rfl
  rw [execWords, hd]

/-- **Exactly which keys are treated like their low 60 bits.**  A lookup ignores the top four bits of
a key if and only if they are 0, or they are those of `HASHOP_LOOKUP` and the number of servers
divides `2 ^ 60`; an insert if and only if they are 0, or they are those of `HASHOP_INSERT` and the
number of servers divides `2 ^ 61`.  Both calls do so exactly for the 60-bit keys. -/
theorem ignoresTopBits_iff {nservers key : ℕ} (hkey : key < 2 ^ 64) :
    (IgnoresTopBits nservers key .lookup ↔
      key < 2 ^ 60 ∨ (key / 2 ^ 60 = 1 ∧ nservers ∣ 2 ^ 60)) ∧
    ((∀ size, IgnoresTopBits nservers key (.insert · size)) ↔
      key < 2 ^ 60 ∨ (key / 2 ^ 60 = 2 ∧ nservers ∣ 2 ^ 61)) ∧
    ((IgnoresTopBits nservers key .lookup ∧ ∀ size, IgnoresTopBits nservers key (.insert · size)) ↔
      key < 2 ^ 60) := by
  have hsmall : key < 2 ^ 60 ↔ key / 2 ^ 60 = 0 := by omega
  have hlookup : IgnoresTopBits nservers key .lookup ↔
      key < 2 ^ 60 ∨ (key / 2 ^ 60 = 1 ∧ nservers ∣ 2 ^ 60) := by
    constructor
    · intro h
      have hd := (hashGetServer_operandOf nservers key).mp h.server
      rcases (decode_lookup_iff hkey).mp h.decoded with h0 | h1
      · exact Or.inl (hsmall.mpr h0)
      · rw [h1, Nat.one_mul] at hd
        exact Or.inr ⟨h1, hd⟩
    · intro h
      refine ignoresTopBits_of_words ?_ ?_ ?_
      · rw [hashGetServer_operandOf]
        rcases h with h | ⟨h1, hd⟩
        · rw [hsmall.mp h, Nat.zero_mul]
          exact dvd_zero _
        · rwa [h1, Nat.one_mul]
      · exact (decode_lookup_iff hkey).mpr (h.imp hsmall.mp And.left)
      · intro t t' s v o rs hexec hv
        rw [execWords_lookup t s o (operandOf_lt key)] at hexec
        exact serverOp_lookup_key hexec hv
  have hinsert : (∀ size, IgnoresTopBits nservers key (.insert · size)) ↔
      key < 2 ^ 60 ∨ (key / 2 ^ 60 = 2 ∧ nservers ∣ 2 ^ 61) := by
    constructor
    · intro h
      have hd := (hashGetServer_operandOf nservers key).mp (h 1).server
      rcases (decode_insert_iff hkey 1).mp (h 1).decoded with h0 | h2
      · exact Or.inl (hsmall.mpr h0)
      · rw [h2] at hd
        exact Or.inr ⟨h2, hd⟩
    · intro h size
      refine ignoresTopBits_of_words ?_ ?_ ?_
      · rw [hashGetServer_operandOf]
        rcases h with h | ⟨h2, hd⟩
        · rw [hsmall.mp h, Nat.zero_mul]
          exact dvd_zero _
        · rw [h2]
          exact hd
      · exact (decode_insert_iff hkey size).mpr (h.imp hsmall.mp And.left)
      · intro t t' s v o rs hexec _
        rw [execWords_insert t s o (operandOf_lt key)] at hexec
        exact serverOp_insert_key hexec
  refine ⟨hlookup, hinsert, ?_⟩
  rw [hlookup, hinsert]
  constructor
  · rintro ⟨h | ⟨h1, -⟩, h' | ⟨h2, -⟩⟩
    · exact h
    · exact h
    · exact h'
    · omega
  · exact fun h => ⟨Or.inl h, Or.inl h⟩

/-- A 60-bit key on three servers. -/
theorem ignoresTopBits_iff_small_key :
    IgnoresTopBits 3 1234 .lookup ∧ ∀ size, IgnoresTopBits 3 1234 (.insert · size) :=
  (ignoresTopBits_iff (by decide)).2.2.mpr (by decide)

/-- Of three servers the lookup of key `0x2000000000000005` goes to server 1, while key 5 belongs to
server 2, and it is executed as the release of the element at address 5. -/
theorem lookup_top_bits_not_ignored :
    ¬ IgnoresTopBits 3 0x2000000000000005 .lookup ∧
      decodeWords (Msg.lookup 0x2000000000000005).words = some (.release 5, 1) ∧
      hashGetServer 3 0x2000000000000005 = 1 ∧ hashGetServer 3 5 = 2 :=
  ⟨fun h => absurd h.decoded (by decide), by decide, by decide, by decide⟩

end SmpHashTable
