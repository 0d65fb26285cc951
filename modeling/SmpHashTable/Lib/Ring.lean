import Mathlib.Data.Nat.ModEq
import Mathlib.Data.List.TakeWhile
import Mathlib.Logic.Function.Basic

/-!
# Lists laid out in arrays and rings

An array is a function on indices.  `Loaded f lo l` says that `l` lies in the cells from `lo` on,
`Seg N f lo l` the same in a ring of `N` cells.  `Slots` is a ring of fixed-size slots that passes
batches of words from one producer to one consumer and has no shared index: a slot is free when its
first word is zero.  What lies in cells that belong to no list is left open throughout.
-/

namespace Ring

open Function

variable {α : Type*}

/-- The cells from `lo` on hold `l`. -/
def Loaded (f : ℕ → α) (lo : ℕ) (l : List α) : Prop :=
  ∀ i v, l[i]? = some v → f (lo + i) = v

theorem loaded_nil (f : ℕ → α) (lo : ℕ) : Loaded f lo [] := by
  intro i v h
  simp at h

theorem loaded_cons {f : ℕ → α} {lo : ℕ} {a : α} {l : List α} :
    Loaded f lo (a :: l) ↔ f lo = a ∧ Loaded f (lo + 1) l := by
  constructor
  · intro h
    refine ⟨h 0 a rfl, ?_⟩
    intro i v hv
    rw [Nat.add_assoc, Nat.add_comm 1 i]
    exact h (i + 1) v hv
  · rintro ⟨h0, h⟩ i v hv
    cases i with
    | zero =>
        cases hv
        exact h0
    | succ i =>
        rw [Nat.add_comm i 1, ← Nat.add_assoc]
        exact h i v hv

theorem loaded_append {f : ℕ → α} {lo : ℕ} {l l' : List α} :
    Loaded f lo (l ++ l') ↔ Loaded f lo l ∧ Loaded f (lo + l.length) l' := by
  induction l generalizing lo with
  | nil => simp [loaded_nil]
  | cons a l ih =>
      rw [List.cons_append, loaded_cons, loaded_cons, ih, List.length_cons, and_assoc]
      rw [show lo + 1 + l.length = lo + (l.length + 1) from by omega]

/-- A write outside the cells of the list. -/
theorem Loaded.update {f : ℕ → α} {lo : ℕ} {l : List α} (h : Loaded f lo l) {i : ℕ} (v : α)
    (hi : i < lo ∨ lo + l.length ≤ i) : Loaded (update f i v) lo l := by
  intro t w ht
  have hlt : t < l.length := (List.getElem?_eq_some_iff.mp ht).1
  rw [update_of_ne (by omega)]
  exact h t w ht

/-- A write right behind the list. -/
theorem Loaded.concat {f : ℕ → α} {lo : ℕ} {l : List α} (h : Loaded f lo l) (v : α) :
    Loaded (Function.update f (lo + l.length) v) lo (l ++ [v]) := by
  refine loaded_append.mpr ⟨h.update v (Or.inr le_rfl), ?_⟩
  exact loaded_cons.mpr ⟨update_self .., loaded_nil _ _⟩

/-- The list is what the cells hold. -/
theorem Loaded.map_range {f : ℕ → α} {lo : ℕ} {l : List α} (h : Loaded f lo l) :
    (List.range l.length).map (fun i => f (lo + i)) = l := by
  apply List.ext_getElem?
  intro i
  rw [List.getElem?_map]
  by_cases hi : i < l.length
  · rw [List.getElem?_range hi, Option.map_some, List.getElem?_eq_getElem hi,
      h i _ (List.getElem?_eq_getElem hi)]
  · rw [List.getElem?_eq_none (by simpa using hi), List.getElem?_eq_none (by simpa using hi)]
    rfl

/-- Store the words of a list one after the other. -/
def store (f : ℕ → α) (lo : ℕ) : List α → ℕ → α
  | [] => f
  | a :: l => store (update f lo a) (lo + 1) l

theorem store_of_lt (f : ℕ → α) {lo i : ℕ} (l : List α) (hi : i < lo) : store f lo l i = f i := by
  induction l generalizing f lo with
  | nil => rfl
  | cons a l ih => rw [store, ih (update f lo a) (by omega), update_of_ne (by omega)]

theorem Loaded.store {f : ℕ → α} {l : List α} {lo : ℕ} (h : Loaded f lo l) (l' : List α) :
    Loaded (store f (lo + l.length) l') lo (l ++ l') := by
  induction l' generalizing f l with
  | nil =>
      rw [List.append_nil]
      exact h
  | cons a l' ih =>
      rw [Ring.store, List.append_cons]
      have hc := ih (h.concat a)
      rwa [List.length_append, List.length_singleton, ← Nat.add_assoc] at hc

/-! ### Rings -/

/-- The cells of a ring of `N` from `lo` on hold `l`. -/
def Seg (N : ℕ) (f : ℕ → α) (lo : ℕ) (l : List α) : Prop := Loaded (fun i => f (i % N)) lo l

theorem seg_nil (N : ℕ) (f : ℕ → α) (lo : ℕ) : Seg N f lo [] := loaded_nil _ _

theorem seg_cons {N : ℕ} {f : ℕ → α} {lo : ℕ} {a : α} {l : List α} :
    Seg N f lo (a :: l) ↔ f (lo % N) = a ∧ Seg N f (lo + 1) l := loaded_cons

/-- Only the position modulo `N` matters. -/
theorem seg_congr {N : ℕ} {f : ℕ → α} {lo lo' : ℕ} {l : List α} (h : lo % N = lo' % N) :
    Seg N f lo l ↔ Seg N f lo' l := by
  have hcell : ∀ i, (lo + i) % N = (lo' + i) % N := fun i => by rw [Nat.add_mod, h, ← Nat.add_mod]
  unfold Seg Loaded
  simp only [hcell]

/-- Two different positions of a window of `N` are different cells. -/
theorem cell_ne {N lo i j : ℕ} (hi : i < N) (hj : j < N) (hne : i ≠ j) :
    (lo + i) % N ≠ (lo + j) % N := by
  intro h
  have hm : i % N = j % N := Nat.ModEq.add_left_cancel' lo h
  rw [Nat.mod_eq_of_lt hi, Nat.mod_eq_of_lt hj] at hm
  exact hne hm

/-- A write in the window but behind the list. -/
theorem Seg.update {N : ℕ} {f : ℕ → α} {lo : ℕ} {l : List α} (h : Seg N f lo l) {k : ℕ} (v : α)
    (hk : l.length ≤ k) (hN : k < N) : Seg N (update f ((lo + k) % N) v) lo l := by
  intro i w hw
  have hi : i < l.length := (List.getElem?_eq_some_iff.mp hw).1
  show Function.update f ((lo + k) % N) v ((lo + i) % N) = w
  rw [update_of_ne (cell_ne (by omega) hN (by omega))]
  exact h i w hw

/-- A write right behind the list. -/
theorem Seg.concat {N : ℕ} {f : ℕ → α} {lo : ℕ} {l : List α} (h : Seg N f lo l) (v : α)
    (hN : l.length < N) : Seg N (Function.update f ((lo + l.length) % N) v) lo (l ++ [v]) := by
  refine loaded_append.mpr ⟨h.update v le_rfl hN, ?_⟩
  exact loaded_cons.mpr ⟨update_self .., loaded_nil _ _⟩

theorem seg_append {N : ℕ} {f : ℕ → α} {lo : ℕ} {l l' : List α} :
    Seg N f lo (l ++ l') ↔ Seg N f lo l ∧ Seg N f (lo + l.length) l' := loaded_append

/-! ### Slots -/

/-- A slot of `B` words holds the batch `b`: a zero word ends a batch that does not fill the slot. -/
structure Holds (B : ℕ) (f : ℕ → ℕ) (b : List ℕ) : Prop where
  first : f 0 ≠ 0
  pos : 0 < b.length
  len : b.length ≤ B
  words : Loaded f 0 b
  stop : b.length < B → f b.length = 0

/-- What a reader that stops at the first zero word sees of a batch. -/
def visible (b : List ℕ) : List ℕ := b.takeWhile (· ≠ 0)

theorem visible_of_ne_zero {b : List ℕ} (h : ∀ w ∈ b, w ≠ 0) : visible b = b :=
  List.takeWhile_eq_self_iff.mpr fun w hw => by simpa using h w hw

theorem visible_cons {w : ℕ} (b : List ℕ) (h : w ≠ 0) : visible (w :: b) = w :: visible b := by
  simp [visible, h]

theorem visible_cons_zero (b : List ℕ) : visible (0 :: b) = [] := by simp [visible]

theorem visible_isPrefix (b : List ℕ) : visible b <+: b := List.takeWhile_prefix _

/-- A word of a batch is visible exactly if it is not zero, as long as those before it are. -/
theorem Loaded.ne_zero_iff {f : ℕ → ℕ} {lo : ℕ} {b : List ℕ} (h : Loaded f lo b) {i : ℕ}
    (hi : i ≤ (visible b).length) (hb : i < b.length) : f (lo + i) ≠ 0 ↔ i < (visible b).length := by
  induction b generalizing lo i with
  | nil => simp at hb
  | cons w b ih =>
      obtain ⟨h0, h1⟩ := loaded_cons.mp h
      by_cases hw : w = 0
      · subst hw
        rw [visible_cons_zero] at hi ⊢
        obtain rfl : i = 0 := Nat.le_zero.mp hi
        simp [h0]
      · rw [visible_cons b hw, List.length_cons] at hi ⊢
        cases i with
        | zero => simp [h0, hw]
        | succ i =>
            rw [show lo + (i + 1) = lo + 1 + i from by omega,
              ih h1 (by omega) (by simpa using hb)]
            omega

/-- The reader's test, at a word before which it has seen no zero. -/
theorem Holds.test {B : ℕ} {f : ℕ → ℕ} {b : List ℕ} (h : Holds B f b) {i : ℕ}
    (hi : i ≤ (visible b).length) : i < B ∧ f i ≠ 0 ↔ i < (visible b).length := by
  have hle := (visible_isPrefix b).length_le
  have hlen := h.len
  rcases Nat.lt_or_ge i b.length with hlt | hge
  · rw [← h.words.ne_zero_iff hi hlt, Nat.zero_add]
    exact ⟨fun hb => hb.2, fun hb => ⟨by omega, hb⟩⟩
  · have heq : i = b.length := by omega
    refine ⟨fun hb => ?_, fun hb => by omega⟩
    rw [heq] at hb
    exact absurd (h.stop hb.1) hb.2

/-- Reading the slot up to its first zero word shows what is visible of the batch. -/
theorem Holds.seen {B : ℕ} {f : ℕ → ℕ} {b : List ℕ} (h : Holds B f b) :
    visible ((List.range B).map f) = visible b := by
  obtain ⟨k, rfl⟩ := Nat.exists_eq_add_of_le h.len
  have hb : (List.range b.length).map f = b := by
    have hmap := h.words.map_range
    simpa using hmap
  rw [List.range_add, List.map_append, hb, List.map_map, visible, List.takeWhile_append]
  split
  · next hall =>
    -- all words of the batch are visible; the word behind it is not
    have hrest : ((List.range k).map (f ∘ fun i => b.length + i)).takeWhile (· ≠ 0) = [] := by
      cases k with
      | zero => rfl
      | succ k =>
          have hstop := h.stop (by omega)
          rw [List.range_succ_eq_map, List.map_cons]
          simp [hstop]
    have hself : visible b = b := (visible_isPrefix b).eq_of_length hall
    rw [hrest, List.append_nil, hself]
  · rfl

/-- The slots from `rd` on hold the batches `bs`, the producer is at `wr`, and every other slot is
free. -/
structure Slots (N B : ℕ) (cell : ℕ → ℕ → ℕ) (rd wr : ℕ) (bs : List (List ℕ)) : Prop where
  rd_lt : rd < N
  len : bs.length ≤ N
  wr_eq : wr = (rd + bs.length) % N
  full : ∀ i b, bs[i]? = some b → Holds B (cell ((rd + i) % N)) b
  free : ∀ i, bs.length ≤ i → i < N → cell ((rd + i) % N) 0 = 0

/-- Overwrite one word of one slot. -/
def setWord (cell : ℕ → ℕ → ℕ) (i j v : ℕ) : ℕ → ℕ → ℕ := update cell i (update (cell i) j v)

theorem setWord_self (cell : ℕ → ℕ → ℕ) (i j v : ℕ) : setWord cell i j v i = update (cell i) j v := by
  simp [setWord]

theorem setWord_of_ne (cell : ℕ → ℕ → ℕ) {i i' : ℕ} (j v : ℕ) (h : i' ≠ i) :
    setWord cell i j v i' = cell i' := by
  simp [setWord, h]

theorem slots_zero {N B : ℕ} (h : 0 < N) : Slots N B (fun _ _ => 0) 0 0 [] := by
  refine ⟨h, Nat.zero_le N, by simp, ?_, fun _ _ _ => rfl⟩
  intro i b hb
  simp at hb

section

variable {N B : ℕ} {cell : ℕ → ℕ → ℕ} {rd wr : ℕ} {b : List ℕ} {bs : List (List ℕ)}

/-- The producer's test: a zero first word means that not all slots are taken. -/
theorem Slots.free_slot (h : Slots N B cell rd wr bs) (hz : cell wr 0 = 0) : bs.length < N := by
  by_contra hlen
  have heq : bs.length = N := by have := h.len; omega
  cases bs with
  | nil => exact absurd h.rd_lt (by simp at heq; omega)
  | cons b bs =>
      have hfull := h.full 0 b rfl
      have hwr : wr = rd := by
        rw [h.wr_eq, heq, Nat.add_mod_right, Nat.mod_eq_of_lt h.rd_lt]
      rw [Nat.add_zero, Nat.mod_eq_of_lt h.rd_lt, ← hwr] at hfull
      exact hfull.first hz

/-- The consumer's test: its slot is empty exactly if no batch is waiting. -/
theorem Slots.empty_iff (h : Slots N B cell rd wr bs) : cell rd 0 = 0 ↔ bs = [] := by
  have hrd : (rd + 0) % N = rd := Nat.mod_eq_of_lt h.rd_lt
  cases bs with
  | nil =>
      have hfree := h.free 0 le_rfl (Nat.lt_of_le_of_lt (Nat.zero_le rd) h.rd_lt)
      rw [hrd] at hfree
      simp [hfree]
  | cons b bs =>
      have hfull := h.full 0 b rfl
      rw [hrd] at hfull
      simp [hfull.first]

/-- The consumer's slot holds the oldest batch. -/
theorem Slots.head (h : Slots N B cell rd wr (b :: bs)) : Holds B (cell rd) b := by
  have hfull := h.full 0 b rfl
  rwa [Nat.add_zero, Nat.mod_eq_of_lt h.rd_lt] at hfull

/-- The consumer's test at a word up to which it has read its slot. -/
theorem Slots.test (h : Slots N B cell rd wr bs) {i : ℕ} (hi : i ≤ (visible (bs.headD [])).length) :
    i < B ∧ cell rd i ≠ 0 ↔ i < (visible (bs.headD [])).length := by
  cases bs with
  | nil =>
      obtain rfl : i = 0 := Nat.le_zero.mp hi
      simp [h.empty_iff.mpr rfl, visible]
  | cons b bs => exact h.head.test hi

/-- The producer's slot is none of the full ones. -/
theorem Slots.wr_ne (h : Slots N B cell rd wr bs) (hlen : bs.length < N) {i : ℕ}
    (hi : i < N) (hne : i ≠ bs.length) : (rd + i) % N ≠ wr := by
  rw [h.wr_eq]
  exact cell_ne hi hlen hne

/-- The producer fills the body of its free slot. -/
theorem Slots.write (h : Slots N B cell rd wr bs) (hlen : bs.length < N) {j : ℕ} (hj : j ≠ 0)
    (v : ℕ) : Slots N B (setWord cell wr j v) rd wr bs := by
  refine ⟨h.rd_lt, h.len, h.wr_eq, ?_, ?_⟩
  · intro i b hb
    have hi : i < bs.length := (List.getElem?_eq_some_iff.mp hb).1
    rw [setWord_of_ne _ _ _ (h.wr_ne hlen (by omega) (by omega))]
    exact h.full i b hb
  · intro i hi hN
    by_cases heq : (rd + i) % N = wr
    · have hzero := h.free i hi hN
      rw [heq] at hzero
      rw [heq, setWord_self, update_of_ne (Ne.symm hj), hzero]
    · rw [setWord_of_ne _ _ _ heq]
      exact h.free i hi hN

/-- The producer publishes its slot by writing the first word. -/
theorem Slots.publish (h : Slots N B cell rd wr bs) (hlen : bs.length < N) {w : ℕ} {ws : List ℕ}
    (hw : w ≠ 0) (hB : ws.length < B) (hbody : Loaded (cell wr) 1 ws)
    (hstop : ws.length + 1 < B → cell wr (ws.length + 1) = 0) :
    Slots N B (setWord cell wr 0 w) rd ((wr + 1) % N) (bs ++ [w :: ws]) := by
  have hslot : Holds B (setWord cell wr 0 w wr) (w :: ws) := by
    rw [setWord_self]
    refine ⟨by simpa using hw, by simp, hB, ?_, ?_⟩
    · exact loaded_cons.mpr ⟨update_self .., hbody.update w (Or.inl (by omega))⟩
    · intro hlt
      rw [List.length_cons] at hlt ⊢
      rw [update_of_ne (by omega)]
      exact hstop hlt
  refine ⟨h.rd_lt, by rw [List.length_append]; exact hlen, ?_, ?_, ?_⟩
  · rw [h.wr_eq, List.length_append, List.length_singleton, Nat.mod_add_mod, Nat.add_assoc]
  · intro i b hb
    by_cases hi : i < bs.length
    · rw [List.getElem?_append_left hi] at hb
      rw [setWord_of_ne _ _ _ (h.wr_ne hlen (by omega) (by omega))]
      exact h.full i b hb
    · rw [List.getElem?_append_right (by omega)] at hb
      have hlt : i - bs.length < 1 := (List.getElem?_eq_some_iff.mp hb).1
      have heq : i = bs.length := by omega
      subst heq
      rw [Nat.sub_self] at hb
      cases hb
      rw [← h.wr_eq]
      exact hslot
  · intro i hi hN
    rw [List.length_append, List.length_singleton] at hi
    rw [setWord_of_ne _ _ _ (h.wr_ne hlen hN (by omega))]
    exact h.free i (by omega) hN

/-- The consumer frees the slot of the oldest batch. -/
theorem Slots.consume (h : Slots N B cell rd wr (b :: bs)) :
    Slots N B (setWord cell rd 0 0) ((rd + 1) % N) wr bs := by
  have hN : 0 < N := Nat.lt_of_le_of_lt (Nat.zero_le rd) h.rd_lt
  have hlen := h.len
  rw [List.length_cons] at hlen
  have hpos : ∀ i, ((rd + 1) % N + i) % N = (rd + (i + 1)) % N := by
    intro i
    rw [Nat.mod_add_mod, Nat.add_assoc, Nat.add_comm 1 i]
  have hrd : (rd + 0) % N = rd := Nat.mod_eq_of_lt h.rd_lt
  refine ⟨Nat.mod_lt _ hN, by omega, ?_, ?_, ?_⟩
  · rw [h.wr_eq, hpos, List.length_cons]
  · intro i b' hb
    have hi : i < bs.length := (List.getElem?_eq_some_iff.mp hb).1
    have hne : (rd + (i + 1)) % N ≠ rd := by
      have hcell : (rd + (i + 1)) % N ≠ (rd + 0) % N := cell_ne (by omega) hN (by omega)
      rwa [hrd] at hcell
    rw [hpos, setWord_of_ne _ _ _ hne]
    exact h.full (i + 1) b' hb
  · intro i hi hiN
    rw [hpos]
    by_cases heq : (rd + (i + 1)) % N = rd
    · rw [heq, setWord_self, update_self]
    · have hlt : i + 1 < N := by
        rcases Nat.lt_or_ge (i + 1) N with hlt | hge
        · exact hlt
        · have hi' : i + 1 = N := by omega
          rw [hi', Nat.add_mod_right, Nat.mod_eq_of_lt h.rd_lt] at heq
          exact absurd rfl heq
      rw [setWord_of_ne _ _ _ heq]
      exact h.free (i + 1) (by simpa using hi) hlt

/-- Reading all slots in order shows the batches, and nothing behind them. -/
theorem Slots.seen (h : Slots N B cell rd wr bs) (hB : 0 < B) :
    (List.range N).map (fun i => visible ((List.range B).map (cell ((rd + i) % N))))
      = bs.map visible ++ List.replicate (N - bs.length) [] := by
  apply List.ext_getElem?
  intro i
  rw [List.getElem?_map, List.getElem?_append, List.getElem?_map, List.length_map]
  rcases Nat.lt_or_ge i bs.length with hlt | hge
  · have hget := List.getElem?_eq_getElem hlt
    rw [List.getElem?_range (lt_of_lt_of_le hlt h.len), if_pos hlt, hget, Option.map_some,
      Option.map_some, (h.full i _ hget).seen]
  · rw [if_neg (Nat.not_lt.mpr hge), List.getElem?_replicate]
    rcases Nat.lt_or_ge i N with hN | hN
    · have hfree := h.free i hge hN
      obtain ⟨B, rfl⟩ := Nat.exists_eq_succ_of_ne_zero hB.ne'
      rw [List.getElem?_range hN, Option.map_some, if_pos (by omega), List.range_succ_eq_map,
        List.map_cons, hfree, visible_cons_zero]
    · rw [List.getElem?_eq_none (by simpa using hN), if_neg (by omega)]
      rfl

end

end Ring
