import SmpHashTable.Lib.NumberedCache

/-!
# What is found was inserted last

A cache may forget, but it never answers with something else than the last insert of the key.
-/

namespace FillingCache

open LruCache (Entry)

variable {κ β : Type*}

/-! ### One operation -/

section

variable [DecidableEq κ]

/-- An entry of the cache after an operation is new, or the operation inserted another key. -/
theorem Op.entries_run [DecidableEq β] {cap : ℕ} {op : Op κ β} {c : Cache κ β} {e : Entry κ β}
    (he : e ∈ (op.run cap c).1.entries) :
    op = .insert e.key e.size e.val ∨ (e ∈ c.entries ∧ ∀ size v, op ≠ .insert e.key size v) := by
  cases op with
  | lookup k => exact Or.inr ⟨LruCache.mem_of_mem_lookup he, fun _ _ heq => by cases heq⟩
  | publish v => exact Or.inr ⟨he, fun _ _ heq => by cases heq⟩
  | insert k size v =>
      rcases List.mem_cons.mp he with rfl | he
      · exact Or.inl rfl
      · obtain ⟨hold, hne⟩ := List.mem_filter.mp ((LruCache.insert_sublist cap _ _).subset he)
        refine Or.inr ⟨hold, fun _ _ heq => ?_⟩
        cases heq
        exact of_decide_eq_true hne rfl

/-- What a lookup finds is the value of an entry of its key that is not being filled. -/
theorem exists_of_hit [DecidableEq β] {c : Cache κ β} {k : κ} {v : β} (h : (lookup k c).2.hit = some v) :
    ∃ e ∈ c.entries, e.key = k ∧ e.val = v ∧ v ∉ c.filling := by
  obtain ⟨hfound, hready⟩ := Option.filter_eq_some_iff.mp h
  obtain ⟨e, he, rfl⟩ := Option.map_eq_some_iff.mp hfound
  refine ⟨e, LruCache.mem_of_lookup he, ?_, rfl, by simpa using hready⟩
  rw [LruCache.lookup] at he
  split at he
  · next e' hfind =>
    cases he
    simpa using List.find?_some hfind
  · cases he

end

/-! ### Histories -/

section

variable [DecidableEq κ] [DecidableEq β] {cap : ℕ}

/-- An entry was made by the last insert of its key, and is being filled unless it was published since. -/
theorem Explains.entry_latest {h : List (Op κ β × Out β)} {c : Cache κ β} (hc : Explains cap h c) {e : Entry κ β}
    (he : e ∈ c.entries) : ∃ before out after, h = before ++ (.insert e.key e.size e.val, out) :: after ∧
      (∀ y ∈ after, ∀ size v, y.1 ≠ .insert e.key size v) ∧
      (e.val ∈ c.filling ∨ .publish e.val ∈ after.map Prod.fst) := by
  induction h using List.reverseRecOn generalizing c with
  | nil =>
      cases hc
      cases he
  | append_singleton h x ih =>
      obtain ⟨c₀, hc₀, -, -, rfl⟩ := hc.init
      obtain ⟨op, out⟩ := x
      rcases Op.entries_run he with rfl | ⟨hold, hother⟩
      · exact ⟨h, out, [], rfl, fun _ hy => (by cases hy), Or.inl List.mem_cons_self⟩
      · obtain ⟨before, out', after, rfl, hafter, hfilled⟩ := ih hc₀ hold
        refine ⟨before, out', after ++ [(op, out)], by simp, fun y hy => ?_, ?_⟩
        · rcases List.mem_append.mp hy with hy | hy
          · exact hafter y hy
          · rw [List.mem_singleton.mp hy]
            exact hother
        · rw [List.map_append]
          rcases hfilled with hin | hin
          · cases op with
            | lookup k => exact Or.inl hin
            | insert k size v => exact Or.inl (List.mem_cons_of_mem v hin)
            | publish v =>
                by_cases hv : e.val = v
                · subst hv
                  exact Or.inr (List.mem_append_right _ List.mem_cons_self)
                · exact Or.inl (List.mem_filter.mpr ⟨hin, decide_eq_true hv⟩)
          · exact Or.inr (List.mem_append_left _ hin)

/-- **What a lookup finds is the value of the last insert of its key**, and has been published since. -/
theorem Explains.latest {before after : List (Op κ β × Out β)} {c : Cache κ β} {k : κ} {out : Out β} {v : β}
    (hc : Explains cap (before ++ (.lookup k, out) :: after) c) (hv : out.hit = some v) :
    ∃ h size out' h', before = h ++ (.insert k size v, out') :: h' ∧
      (∀ y ∈ h', ∀ size w, y.1 ≠ .insert k size w) ∧ .publish v ∈ h'.map Prod.fst := by
  obtain ⟨c₀, hc₀, -, hout, -⟩ := shows_append.mp hc
  have hhit : (FillingCache.lookup k c₀).2.hit = some v := (congrArg Out.hit hout).trans hv
  obtain ⟨e, he, rfl, rfl, hready⟩ := exists_of_hit hhit
  obtain ⟨h, out', h', hbefore, hother, hfilled⟩ := Explains.entry_latest hc₀ he
  exact ⟨h, e.size, out', h', hbefore, hother, hfilled.resolve_left hready⟩

end

/-! ### Caches of numbers -/

/-- In a cache of numbers that was asked `asks`, the answers to lookups are numbers of last inserts. -/
structure Tally.Fresh (asks : List (Ask κ)) (x : Tally κ) : Prop where
  length : x.answers.length = asks.length
  entries : ∀ e ∈ x.cache.entries, ∃ before after, asks = before ++ .insert e.key e.size :: after ∧
    before.length = e.val ∧ ∀ a ∈ after, ∀ size, a ≠ .insert e.key size
  found : ∀ (before : List (Ask κ)) (k : κ) (after : List (Ask κ)) (j : ℕ), asks = before ++ .lookup k :: after →
    x.answers[before.length]? = some (some j) → ∃ h size h', before = h ++ .insert k size :: h' ∧
      h.length = j ∧ ∀ a ∈ h', ∀ size, a ≠ .insert k size

namespace Tally

variable {cap : ℕ} {x : Tally κ} {asks : List (Ask κ)}

theorem fresh_start : Fresh ([] : List (Ask κ)) start := by
  refine ⟨rfl, fun e he => (by cases he), fun before k after j hasks => ?_⟩
  cases before with
  | nil => cases hasks
  | cons b before => cases hasks

theorem Fresh.settle (h : Fresh asks x) : Fresh asks x.settle := ⟨h.length, h.entries, h.found⟩

/-- The entries of an earlier moment, if the operation has not inserted their keys. -/
theorem Fresh.entry_later (h : Fresh asks x) {a : Ask κ} {e : Entry κ ℕ} (he : e ∈ x.cache.entries)
    (ha : ∀ size, a ≠ .insert e.key size) : ∃ before after, asks ++ [a] = before ++ .insert e.key e.size :: after ∧
      before.length = e.val ∧ ∀ b ∈ after, ∀ size, b ≠ .insert e.key size := by
  obtain ⟨before, after, hasks, hlen, hafter⟩ := h.entries e he
  refine ⟨before, after ++ [a], by rw [hasks]; simp, hlen, fun b hb => ?_⟩
  rcases List.mem_append.mp hb with hb | hb
  · exact hafter b hb
  · rw [List.mem_singleton.mp hb]
    exact ha

/-- An answer more, which for a lookup is the number of a last insert. -/
theorem Fresh.found_later (h : Fresh asks x) {a : Ask κ} {answer : Option ℕ}
    (hlast : ∀ k j, a = .lookup k → answer = some j → ∃ h size h', asks = h ++ .insert k size :: h' ∧
      h.length = j ∧ ∀ b ∈ h', ∀ size, b ≠ .insert k size) :
    ∀ (before : List (Ask κ)) (k : κ) (after : List (Ask κ)) (j : ℕ), asks ++ [a] = before ++ .lookup k :: after →
      (x.answers ++ [answer])[before.length]? = some (some j) → ∃ h size h', before = h ++ .insert k size :: h' ∧
        h.length = j ∧ ∀ b ∈ h', ∀ size, b ≠ .insert k size := by
  intro before k after j heq hj
  rcases List.eq_nil_or_concat after with rfl | ⟨after, b, rfl⟩
  · obtain ⟨rfl, hone⟩ := List.append_inj' heq rfl
    cases hone
    rw [← h.length, List.getElem?_concat_length] at hj
    exact hlast k j rfl (Option.some.inj hj)
  · have hinit : asks = before ++ .lookup k :: after := by
      have heq' : asks ++ [a] = (before ++ .lookup k :: after) ++ [b] := by rw [heq]; simp
      exact (List.append_inj' heq' rfl).1
    have hlt : before.length < x.answers.length := by
      rw [h.length, hinit]
      simp
    rw [List.getElem?_append_left hlt] at hj
    exact h.found before k after j hinit hj

section

variable [DecidableEq κ]

/-- One request. -/
theorem Fresh.ask (h : Fresh asks x) (a : Ask κ) : Fresh (asks ++ [a]) (x.ask cap a) := by
  cases a with
  | lookup k =>
      refine ⟨by rw [Tally.ask, List.length_append, List.length_append, h.length]; rfl, fun e he => ?_,
        h.found_later fun k' j hk hj => ?_⟩
      · exact h.entry_later (LruCache.mem_of_mem_lookup he) fun size heq => by cases heq
      · cases hk
        obtain ⟨e, he, rfl, rfl, -⟩ := exists_of_hit hj
        obtain ⟨before, after, hasks, hlen, hafter⟩ := h.entries e he
        exact ⟨before, e.size, after, hasks, hlen, hafter⟩
  | insert k size =>
      refine ⟨by rw [Tally.ask, List.length_append, List.length_append, h.length]; rfl, fun e he => ?_,
        h.found_later fun k' j hk _ => by cases hk⟩
      rcases List.mem_cons.mp he with rfl | he
      · exact ⟨asks, [], rfl, h.length.symm, fun _ hb => by cases hb⟩
      · obtain ⟨hold, hne⟩ := List.mem_filter.mp ((LruCache.insert_sublist cap _ _).subset he)
        refine h.entry_later hold fun size' heq => ?_
        cases heq
        exact of_decide_eq_true hne rfl

theorem Fresh.serve (h : Fresh asks x) (as : List (Ask κ)) : Fresh (asks ++ as) (x.serve cap as) := by
  induction as generalizing asks x with
  | nil =>
      rw [List.append_nil]
      exact h
  | cons a as ih =>
      rw [List.append_cons]
      exact ih (h.ask a)

/-- **Rounds of requests.** -/
theorem Fresh.rounds (h : Fresh asks x) (bs : List (List (Ask κ))) :
    Fresh (asks ++ bs.flatten) (x.rounds cap bs) := by
  induction bs generalizing asks x with
  | nil =>
      rw [List.flatten_nil, List.append_nil]
      exact h
  | cons b bs ih =>
      rw [List.flatten_cons, ← List.append_assoc]
      exact ih (h.serve b).settle

end

end Tally

end FillingCache
