import Mathlib.Algebra.Order.BigOperators.Group.Finset
import SmpHashTable.Lib.FillingCache

/-!
# What stays in the cache

An entry leaves a cache with least-recently-used replacement only to make room for keys that were used
after it.  So it stays as long as these keys, each counted once and with the largest size its values
have, leave room for it; and then every lookup of its key finds its value, once that is published.
-/

namespace LruCache

variable {κ β : Type*}

/-- Making room stops before what fits. -/
theorem trim_keeps {cap need : ℕ} {keep : List (Entry κ β)} (hroom : total keep + need ≤ cap)
    (front : List (Entry κ β)) : ∃ rest, rest <:+ front ∧ (trim cap need (front ++ keep)).1 = rest ++ keep := by
  induction front with
  | nil => exact ⟨[], List.suffix_rfl, by rw [List.nil_append, trim_fits hroom]⟩
  | cons e front ih =>
      by_cases hfits : total (e :: (front ++ keep)) + need ≤ cap
      · exact ⟨e :: front, List.suffix_rfl, by rw [List.cons_append, trim_fits hfits]⟩
      · obtain ⟨rest, hsuffix, heq⟩ := ih
        refine ⟨rest, hsuffix.trans (List.suffix_cons e front), ?_⟩
        rw [List.cons_append, trim_drop hfits]
        exact heq

/-- What stays when room is made are the last ones. -/
theorem trim_suffix (cap need : ℕ) (es : List (Entry κ β)) : (trim cap need es).1 <:+ es := by
  induction es with
  | nil => exact List.suffix_rfl
  | cons e es ih =>
      rw [trim]
      split
      · exact List.suffix_rfl
      · exact ih.trans (List.suffix_cons e es)

/-- The entry `x` is in the cache, the entries used after it have keys in `K`, and entries with keys in `K`
have no more bytes than `g` gives their keys. -/
structure Recent (K : Finset κ) (g : κ → ℕ) (x : Entry κ β) (es : List (Entry κ β)) : Prop where
  distinct : (es.map Entry.key).Nodup
  small : ∀ y ∈ es, y.key ∈ K → y.size ≤ g y.key
  split : ∃ newer older, es = newer ++ x :: older ∧ ∀ y ∈ newer, y.key ∈ K

theorem Recent.mem {K : Finset κ} {g : κ → ℕ} {x : Entry κ β} {es : List (Entry κ β)}
    (h : Recent K g x es) : x ∈ es := by
  obtain ⟨newer, older, rfl, -⟩ := h.split
  exact List.mem_append_right newer List.mem_cons_self

section

variable [DecidableEq κ]

/-- Entries with different keys of `K` have no more bytes than `g` gives these keys. -/
theorem total_le_sum {K : Finset κ} {g : κ → ℕ} {es : List (Entry κ β)} (hnd : (es.map Entry.key).Nodup)
    (hmem : ∀ y ∈ es, y.key ∈ K) (hsmall : ∀ y ∈ es, y.size ≤ g y.key) : total es ≤ K.sum g := by
  calc total es ≤ ((es.map Entry.key).map g).sum := by
        rw [total, List.map_map]
        exact List.sum_le_sum hsmall
    _ = (es.map Entry.key).toFinset.sum g := (List.sum_toFinset g hnd).symm
    _ ≤ K.sum g := by
        refine Finset.sum_le_sum_of_subset fun k hk => ?_
        obtain ⟨y, hy, rfl⟩ := List.mem_map.mp (List.mem_toFinset.mp hk)
        exact hmem y hy

variable {K : Finset κ} {g : κ → ℕ} {x : Entry κ β} {es : List (Entry κ β)} {cap : ℕ}

/-- Its key is found. -/
theorem Recent.found (h : Recent K g x es) : (lookup x.key es).1 = some x := by
  have hone := filter_key_eq h.distinct h.mem
  have hfind : es.find? (fun e => e.key = x.key) = some x := by
    rw [← List.head?_filter, hone]
    rfl
  rw [lookup, hfind]

theorem mem_of_lookup {k : κ} {y : Entry κ β} (hy : (lookup k es).1 = some y) : y ∈ es := by
  rw [lookup] at hy
  split at hy
  · next e hfind =>
    cases hy
    exact List.mem_of_find?_eq_some hfind
  · cases hy

theorem mem_of_mem_lookup {k : κ} {y : Entry κ β} (hy : y ∈ (lookup k es).2) : y ∈ es := by
  rw [lookup] at hy
  split at hy
  · next e hfind =>
    rcases List.mem_cons.mp hy with rfl | hy
    · exact List.mem_of_find?_eq_some hfind
    · exact (List.mem_filter.mp hy).1
  · exact hy

/-- The entries that an insert keeps, behind the new one. -/
theorem insert_sublist (cap : ℕ) (new : Entry κ β) (es : List (Entry κ β)) :
    (trim cap new.size (es.filter fun e => e.key ≠ new.key).reverse).1.reverse.Sublist
      (es.filter fun e => e.key ≠ new.key) :=
  List.reverse_sublist.mp (by rw [List.reverse_reverse]; exact (trim_suffix _ _ _).sublist)

theorem mem_of_mem_insert {new y : Entry κ β} (hy : y ∈ (insert cap new es).1) : y = new ∨ y ∈ es := by
  rcases List.mem_cons.mp hy with rfl | hy
  · exact Or.inl rfl
  · exact Or.inr (List.mem_filter.mp ((insert_sublist cap new es).subset hy)).1

/-- Looking a key up keeps the keys apart and adds no entry. -/
theorem lookup_entries (hnd : (es.map Entry.key).Nodup) (k : κ) :
    ((lookup k es).2.map Entry.key).Nodup ∧ ∀ y ∈ (lookup k es).2, y ∈ es := by
  refine ⟨?_, fun y hy => mem_of_mem_lookup hy⟩
  rw [lookup]
  split
  · next e hfind =>
    have hkey : e.key = k := by simpa using List.find?_some hfind
    rw [List.map_cons, List.nodup_cons]
    refine ⟨?_, (List.filter_sublist.map Entry.key).nodup hnd⟩
    intro hin
    obtain ⟨y, hy, heq⟩ := List.mem_map.mp hin
    exact of_decide_eq_true (List.mem_filter.mp hy).2 (heq.trans hkey)
  · exact hnd

/-- **A lookup** of a key of `K`, or of the entry itself. -/
theorem Recent.lookup (h : Recent K g x es) (hx : x.key ∉ K) {k : κ} (hk : k ∈ K ∨ k = x.key) :
    Recent K g x (lookup k es).2 := by
  obtain ⟨hdistinct, hsub⟩ := lookup_entries h.distinct k
  refine ⟨hdistinct, fun y hy => h.small y (hsub y hy), ?_⟩
  rcases hk with hk | rfl
  · have hne : x.key ≠ k := fun heq => hx (heq ▸ hk)
    obtain ⟨newer, older, rfl, hnewer⟩ := h.split
    rw [LruCache.lookup]
    split
    · next e hfind =>
      have hkey : e.key = k := by simpa using List.find?_some hfind
      refine ⟨e :: newer.filter (fun y => y.key ≠ k), older.filter (fun y => y.key ≠ k), ?_, ?_⟩
      · rw [List.filter_append, List.filter_cons_of_pos (by simpa using hne), List.cons_append]
      · intro y hy
        rcases List.mem_cons.mp hy with rfl | hy
        · rw [hkey]
          exact hk
        · exact hnewer y (List.mem_filter.mp hy).1
    · exact ⟨newer, older, rfl, hnewer⟩
  · have hfound := h.found
    rw [LruCache.lookup] at hfound ⊢
    split at hfound
    · next e hfind =>
      cases hfound
      exact ⟨[], _, rfl, fun y hy => by cases hy⟩
    · cases hfound

/-- What an insert leaves are entries that were there, and the new one. -/
theorem insert_entries (hnd : (es.map Entry.key).Nodup) (cap : ℕ) (new : Entry κ β) :
    ((insert cap new es).1.map Entry.key).Nodup ∧ ∀ y ∈ (insert cap new es).1, y = new ∨ y ∈ es := by
  have hsub := insert_sublist cap new es
  refine ⟨?_, fun y hy => mem_of_mem_insert hy⟩
  rw [insert, List.map_cons, List.nodup_cons]
  refine ⟨fun hin => ?_, ((hsub.trans List.filter_sublist).map Entry.key).nodup hnd⟩
  obtain ⟨y, hy, heq⟩ := List.mem_map.mp hin
  exact of_decide_eq_true (List.mem_filter.mp (hsub.subset hy)).2 heq

/-- **An insert** of a key of `K`. -/
theorem Recent.insert (h : Recent K g x es) (hx : x.key ∉ K) (hroom : K.sum g + x.size ≤ cap) {new : Entry κ β}
    (hkey : new.key ∈ K) (hsize : new.size ≤ g new.key) : Recent K g x (insert cap new es).1 := by
  obtain ⟨hdistinct, hsub⟩ := insert_entries h.distinct cap new
  refine ⟨hdistinct, ?_, ?_⟩
  · intro y hy hin
    rcases hsub y hy with rfl | hy
    · exact hsize
    · exact h.small y hy hin
  · have hne : x.key ≠ new.key := fun heq => hx (heq ▸ hkey)
    obtain ⟨newer, older, rfl, hnewer⟩ := h.split
    set kept := newer.filter fun e => e.key ≠ new.key with hkept
    have hback : ((newer ++ x :: older).filter fun e => e.key ≠ new.key).reverse
        = (older.filter fun e => e.key ≠ new.key).reverse ++ (x :: kept.reverse) := by
      rw [List.filter_append, List.filter_cons_of_pos (by simpa using hne), List.reverse_append,
        List.reverse_cons, List.append_assoc, List.singleton_append]
    -- the new entry pays for itself out of what `g` gives its key
    have hfits : total (x :: kept.reverse) + new.size ≤ cap := by
      have hnd : (kept.map Entry.key).Nodup := by
        have hall := h.distinct
        rw [List.map_append] at hall
        exact (List.filter_sublist.map Entry.key).nodup hall.of_append_left
      have hle : total kept ≤ (K.erase new.key).sum g := by
        refine total_le_sum hnd ?_ ?_
        · intro y hy
          obtain ⟨hy, hk⟩ := List.mem_filter.mp hy
          exact Finset.mem_erase.mpr ⟨of_decide_eq_true hk, hnewer y hy⟩
        · intro y hy
          have hy := (List.mem_filter.mp hy).1
          exact h.small y (List.mem_append_left _ hy) (hnewer y hy)
      have hsum : g new.key + (K.erase new.key).sum g = K.sum g := Finset.add_sum_erase K g hkey
      have htotal : total (x :: kept.reverse) = x.size + total kept := by
        rw [← total_reverse kept]
        rfl
      omega
    obtain ⟨rest, -, htrim⟩ := trim_keeps hfits (older.filter fun e => e.key ≠ new.key).reverse
    refine ⟨new :: kept, rest.reverse, ?_, ?_⟩
    · rw [LruCache.insert]
      simp only
      rw [hback, htrim, List.reverse_append, List.reverse_cons, List.reverse_reverse, List.append_assoc,
        List.singleton_append, List.cons_append]
    · intro y hy
      rcases List.mem_cons.mp hy with rfl | hy
      · exact hkey
      · exact hnewer y (List.mem_filter.mp hy).1

end

end LruCache

namespace FillingCache

open LruCache (Entry Recent)

variable {κ β : Type*} [DecidableEq κ] [DecidableEq β] {K : Finset κ} {g : κ → ℕ} {cap : ℕ}

/-- The operation is on a key of `K`, or a lookup of `k`, and inserts no more bytes than `g` gives its key. -/
def Op.Within (K : Finset κ) (g : κ → ℕ) (k : κ) : Op κ β → Prop
  | .lookup k' => k' ∈ K ∨ k' = k
  | .insert k' size _ => k' ∈ K ∧ size ≤ g k'
  | .publish _ => True

/-- If the operation inserts a value of a key of `K`, it has no more bytes than `g` gives its key. -/
def Op.Small (K : Finset κ) (g : κ → ℕ) : Op κ β → Prop
  | .insert k size _ => k ∈ K → size ≤ g k
  | _ => True

/-- The entries of a cache have different keys, and the sizes of their inserts. -/
theorem Shows.entries {c c' : Cache κ β} {h : List (Op κ β × Out β)} (hs : Shows cap c h c')
    (hnd : (c.entries.map Entry.key).Nodup) (hsmall : ∀ y ∈ c.entries, y.key ∈ K → y.size ≤ g y.key)
    (hops : ∀ y ∈ h, y.1.Small K g) :
    (c'.entries.map Entry.key).Nodup ∧ ∀ y ∈ c'.entries, y.key ∈ K → y.size ≤ g y.key := by
  induction h generalizing c with
  | nil =>
      cases hs
      exact ⟨hnd, hsmall⟩
  | cons z h ih =>
      obtain ⟨-, -, hs⟩ := hs
      have hrest : ∀ y ∈ h, y.1.Small K g := fun y hy => hops y (List.mem_cons_of_mem z hy)
      have hz := hops z List.mem_cons_self
      obtain ⟨op, out⟩ := z
      cases op with
      | lookup k =>
          obtain ⟨hnd', hsub⟩ := LruCache.lookup_entries hnd k
          exact ih hs hnd' (fun y hy => hsmall y (hsub y hy)) hrest
      | insert k size v =>
          obtain ⟨hnd', hsub⟩ := LruCache.insert_entries hnd cap ⟨k, size, v⟩
          refine ih hs hnd' (fun y hy hin => ?_) hrest
          rcases hsub y hy with rfl | hy
          · exact hz hin
          · exact hsmall y hy hin
      | publish v => exact ih hs hnd hsmall hrest

/-- **The working set**: an entry stays as long as the keys used after it leave room for it. -/
theorem Shows.recent {x : Entry κ β} {c c' : Cache κ β} {h : List (Op κ β × Out β)} (hs : Shows cap c h c')
    (hx : x.key ∉ K) (hroom : K.sum g + x.size ≤ cap) (hrecent : Recent K g x c.entries)
    (hops : ∀ y ∈ h, y.1.Within K g x.key) : Recent K g x c'.entries := by
  induction h generalizing c with
  | nil =>
      cases hs
      exact hrecent
  | cons z h ih =>
      obtain ⟨-, -, hs⟩ := hs
      have hz := hops z List.mem_cons_self
      refine ih hs ?_ fun y hy => hops y (List.mem_cons_of_mem z hy)
      obtain ⟨op, out⟩ := z
      cases op with
      | lookup k => exact hrecent.lookup hx hz
      | insert k size v => exact hrecent.insert hx hroom hz.1 hz.2
      | publish v => exact hrecent

/-- While the entry of a value stays, the value is being filled until it is published. -/
theorem Shows.filling {x : Entry κ β} {c c' : Cache κ β} {h : List (Op κ β × Out β)} (hs : Shows cap c h c')
    (hx : x.key ∉ K) (hroom : K.sum g + x.size ≤ cap) (hrecent : Recent K g x c.entries)
    (hops : ∀ y ∈ h, y.1.Within K g x.key) :
    x.val ∈ c'.filling ↔ x.val ∈ c.filling ∧ .publish x.val ∉ h.map Prod.fst := by
  induction h generalizing c with
  | nil =>
      cases hs
      exact ⟨fun hin => ⟨hin, fun hp => by cases hp⟩, fun hin => hin.1⟩
  | cons z h ih =>
      have hstep : Shows cap c [z] (z.1.run cap c).1 := ⟨hs.1, hs.2.1, rfl⟩
      have hrecent' := hstep.recent hx hroom hrecent fun y hy =>
        hops y (List.mem_singleton.mp hy ▸ List.mem_cons_self)
      rw [ih hs.2.2 hrecent' fun y hy => hops y (List.mem_cons_of_mem z hy), List.map_cons, List.mem_cons,
        not_or, ← and_assoc]
      refine and_congr_left fun _ => ?_
      obtain ⟨op, out⟩ := z
      cases op with
      | lookup k => exact ⟨fun hin => ⟨hin, fun heq => by cases heq⟩, fun hin => hin.1⟩
      | insert k size v =>
          -- the new value is another one
          have hne : x.val ≠ v := by
            have hk := (hops _ List.mem_cons_self).1
            have hnd := (List.nodup_cons.mp hs.1.1).1
            rcases List.mem_cons.mp hrecent'.mem with hnew | hold
            · rw [hnew] at hx
              exact absurd hk hx
            · exact fun heq => hnd (List.mem_map.mpr ⟨x, hold, heq⟩)
          show x.val ∈ v :: c.filling ↔ _
          rw [List.mem_cons, or_iff_right hne]
          exact ⟨fun hin => ⟨hin, fun heq => by cases heq⟩, fun hin => hin.1⟩
      | publish v =>
          show x.val ∈ c.filling.filter (· ≠ v) ↔ _
          rw [List.mem_filter, decide_eq_true_eq]
          refine and_congr_right fun _ => not_congr ⟨fun heq => ?_, fun heq => ?_⟩
          · rw [heq]
          · cases heq
            rfl

/-- **A value that is in the working set is found** by every lookup of its key once it is published, and
not before. -/
theorem Explains.hit {c : Cache κ β} {h h' h'' : List (Op κ β × Out β)} {k : κ} {size : ℕ} {v : β}
    {out out' : Out β} (hs : Explains cap (h ++ (.insert k size v, out) :: (h' ++ (.lookup k, out') :: h'')) c)
    (hk : k ∉ K) (hroom : K.sum g + size ≤ cap) (hold : ∀ y ∈ h, y.1.Small K g)
    (hnew : ∀ y ∈ h', y.1.Within K g k) :
    out'.hit = if .publish v ∈ h'.map Prod.fst then some v else none := by
  obtain ⟨c₁, h₁, -, -, hs⟩ := shows_append.mp hs
  obtain ⟨c₂, h₂, -, hout, -⟩ := shows_append.mp hs
  obtain ⟨hnd, hsmall⟩ := h₁.entries List.nodup_nil (fun _ hin => by cases hin) hold
  obtain ⟨hnd', hsub⟩ := LruCache.insert_entries hnd cap ⟨k, size, v⟩
  have hrecent : Recent K g ⟨k, size, v⟩ (LruCache.insert cap ⟨k, size, v⟩ c₁.entries).1 := by
    refine ⟨hnd', fun y hy hin => ?_, [], _, rfl, fun y hy => by cases hy⟩
    rcases hsub y hy with rfl | hy
    · exact absurd hin hk
    · exact hsmall y hy hin
  have hfound : (LruCache.lookup k c₂.entries).1 = some ⟨k, size, v⟩ :=
    (h₂.recent hk hroom hrecent hnew).found
  have hfilling : v ∈ c₂.filling ↔ .publish v ∉ h'.map Prod.fst := by
    rw [h₂.filling hk hroom hrecent hnew]
    exact and_iff_right List.mem_cons_self
  have hhit : (Option.filter (· ∉ c₂.filling) (some v)) = out'.hit := by
    rw [← congrArg Out.hit hout, ← Option.map_some (f := Entry.val) (a := ⟨k, size, v⟩), ← hfound]
    rfl
  rw [← hhit, Option.filter_some]
  by_cases hp : .publish v ∈ h'.map Prod.fst
  · have hnot : v ∉ c₂.filling := fun hin => hfilling.mp hin hp
    rw [if_pos hp, if_pos (decide_eq_true hnot)]
  · rw [if_neg hp, if_neg (by simpa using hfilling.mpr hp)]

end FillingCache
