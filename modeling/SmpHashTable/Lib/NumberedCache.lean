import Mathlib.Data.List.GetD
import SmpHashTable.Lib.WorkingSet

/-!
# Values named by their inserts

What a user sees of a cache are the values that its requests return, and how these are made is nobody's
business.  Here a value is the number of the request that inserted it.  A cache with values of any kind
answers as this one does: a request finds nothing in both, or in both what the same insert returned.

Values are published in rounds: first all requests of a round are made, then all values are filled in.
-/

namespace LruCache

variable {κ β γ : Type*}

/-- Another value. -/
def Entry.map (f : β → γ) (e : Entry κ β) : Entry κ γ := ⟨e.key, e.size, f e.val⟩

@[simp] theorem Entry.map_key (f : β → γ) (e : Entry κ β) : (e.map f).key = e.key := rfl

@[simp] theorem Entry.map_size (f : β → γ) (e : Entry κ β) : (e.map f).size = e.size := rfl

@[simp] theorem Entry.map_val (f : β → γ) (e : Entry κ β) : (e.map f).val = f e.val := rfl

theorem total_map (f : β → γ) (es : List (Entry κ β)) : total (es.map (Entry.map f)) = total es := by
  rw [total, total, List.map_map]
  rfl

theorem trim_map (f : β → γ) (cap need : ℕ) (es : List (Entry κ β)) :
    trim cap need (es.map (Entry.map f))
      = ((trim cap need es).1.map (Entry.map f), (trim cap need es).2.map (Entry.map f)) := by
  induction es with
  | nil => rfl
  | cons e es ih =>
      by_cases hfits : total (e :: es) + need ≤ cap
      · rw [trim_fits hfits, trim_fits (by rwa [total_map])]
        rfl
      · rw [trim_drop hfits, List.map_cons, trim_drop (by rwa [← List.map_cons, total_map]), ih]
        rfl

section

variable [DecidableEq κ]

/-- A lookup does not look at values. -/
theorem lookup_map (f : β → γ) (k : κ) (es : List (Entry κ β)) :
    lookup k (es.map (Entry.map f))
      = ((lookup k es).1.map (Entry.map f), (lookup k es).2.map (Entry.map f)) := by
  have hfind : (es.map (Entry.map f)).find? (fun e => e.key = k)
      = (es.find? fun e => e.key = k).map (Entry.map f) := List.find?_map
  rw [lookup, lookup, hfind]
  cases es.find? fun e => e.key = k with
  | none => rfl
  | some e =>
      have hrest : (es.map (Entry.map f)).filter (fun e => e.key ≠ k)
          = (es.filter fun e => e.key ≠ k).map (Entry.map f) := List.filter_map
      simp only [Option.map_some, List.map_cons, hrest]

/-- An insert does not look at values. -/
theorem insert_map (f : β → γ) (cap : ℕ) (new : Entry κ β) (es : List (Entry κ β)) :
    insert cap (new.map f) (es.map (Entry.map f))
      = ((insert cap new es).1.map (Entry.map f), (insert cap new es).2.map (Entry.map f)) := by
  have hrest : (es.map (Entry.map f)).filter (fun e => e.key ≠ new.key)
      = (es.filter fun e => e.key ≠ new.key).map (Entry.map f) := List.filter_map
  have hold : (es.map (Entry.map f)).filter (fun e => e.key = new.key)
      = (es.filter fun e => e.key = new.key).map (Entry.map f) := List.filter_map
  calc insert cap (new.map f) (es.map (Entry.map f))
      = (new.map f :: (trim cap new.size
            ((es.map (Entry.map f)).filter fun e => e.key ≠ new.key).reverse).1.reverse,
          (es.map (Entry.map f)).filter (fun e => e.key = new.key) ++ (trim cap new.size
            ((es.map (Entry.map f)).filter fun e => e.key ≠ new.key).reverse).2) := rfl
    _ = _ := by
        rw [hrest, hold, ← List.map_reverse, trim_map, ← List.map_reverse, ← List.map_append]
        rfl

end

end LruCache

namespace FillingCache

open LruCache (Entry)

variable {κ β γ : Type*}

/-- A request, whose value has no name yet. -/
inductive Ask (κ : Type*)
  | lookup (k : κ)
  | insert (k : κ) (size : ℕ)
  deriving DecidableEq

def Ask.key : Ask κ → κ
  | .lookup k => k
  | .insert k _ => k

/-- A cache of numbers, and the answers to all requests so far. -/
structure Tally (κ : Type*) where
  cache : Cache κ ℕ
  answers : List (Option ℕ)

namespace Tally

def start : Tally κ := ⟨.empty, []⟩

/-- All values are published. -/
def settle (x : Tally κ) : Tally κ := { x with cache := ⟨x.cache.entries, []⟩ }

/-- The numbers in use. -/
def names (x : Tally κ) : List ℕ := x.cache.entries.map Entry.val ++ x.cache.filling

variable [DecidableEq κ] (cap : ℕ)

/-- One request; the answer to an insert is its own number. -/
def ask (x : Tally κ) : Ask κ → Tally κ
  | .lookup k => ⟨(lookup k x.cache).1, x.answers ++ [(lookup k x.cache).2.hit]⟩
  | .insert k size =>
      ⟨(insert cap k size x.answers.length x.cache).1, x.answers ++ [some x.answers.length]⟩

def serve (x : Tally κ) (asks : List (Ask κ)) : Tally κ := asks.foldl (ask cap) x

/-- Rounds of requests; the values of one round are published before the next. -/
def rounds (x : Tally κ) (bs : List (List (Ask κ))) : Tally κ := bs.foldl (fun x b => (x.serve cap b).settle) x

end Tally

/-- The value that request `j` returned. -/
def valueOf (vals : List (Option β)) (j : ℕ) : Option β := vals.getD j none

/-- The values are those that the answers name: nothing where nothing was found, and what request `j`
returned where its value was found. -/
def Agrees (answers : List (Option ℕ)) (vals : List (Option β)) : Prop :=
  ∀ (k : ℕ) (v : Option β), vals[k]? = some v → (answers[k]? = some none ∧ v = none) ∨
    ∃ j ≤ k, answers[k]? = some (some j) ∧ v.isSome ∧ vals[j]? = some v

/-- The cache `c` with the values `vals` returned so far is the cache of numbers. -/
structure Named (vals : List (Option β)) (c : Cache κ β) (x : Tally κ) : Prop where
  length : vals.length = x.answers.length
  answered : Agrees x.answers vals
  entries : c.entries.map (Entry.map some) = x.cache.entries.map (Entry.map (valueOf vals))
  filling : ∀ j ∈ x.cache.filling, ∃ v ∈ c.filling, valueOf vals j = some v
  made : ∀ j ∈ x.names, j < vals.length
  /-- Values are told apart as long as they are in use. -/
  inj : ∀ j ∈ x.names, ∀ j' ∈ x.names, valueOf vals j = valueOf vals j' → j = j'

/-- All that `c` is filling was inserted in this round. -/
def Synced (vals : List (Option β)) (c : Cache κ β) (x : Tally κ) : Prop :=
  ∀ v ∈ c.filling, ∃ j ∈ x.cache.filling, valueOf vals j = some v

/-- What an operation asks for. -/
def Op.ask : Op κ β → Option (Ask κ)
  | .lookup k => some (.lookup k)
  | .insert k size _ => some (.insert k size)
  | .publish _ => none

/-- What an operation returns that shows `out`. -/
def Op.returns (out : Out β) : Op κ β → Option β
  | .lookup _ => out.hit
  | .insert _ _ v => some v
  | .publish _ => none

/-! ### Values returned so far -/

theorem valueOf_append {vals vals' : List (Option β)} {j : ℕ} (hj : j < vals.length) :
    valueOf (vals ++ vals') j = valueOf vals j := List.getD_append _ _ _ _ hj

theorem valueOf_last (vals : List (Option β)) (v : Option β) : valueOf (vals ++ [v]) vals.length = v := by
  simp [valueOf]

theorem valueOf_eq_some {vals : List (Option β)} {j : ℕ} {v : β} :
    valueOf vals j = some v ↔ vals[j]? = some (some v) := by
  rw [valueOf, List.getD_eq_getElem?_getD]
  cases vals[j]? with
  | none => simp
  | some w => simp

/-- An earlier moment. -/
theorem Agrees.prefix {answers answers' : List (Option ℕ)} {vals vals' : List (Option β)}
    (h : Agrees answers vals) (hans : answers <+: answers') (hvals : vals' <+: vals) :
    Agrees answers' vals' := by
  intro k v hv
  obtain ⟨rest, rfl⟩ := hvals
  have hk := (List.getElem?_eq_some_iff.mp hv).1
  rw [← List.getElem?_append_left hk] at hv
  obtain ⟨rest', rfl⟩ := hans
  have hlater : ∀ a, answers[k]? = some a → (answers ++ rest')[k]? = some a := by
    intro a ha
    rw [List.getElem?_append_left (List.getElem?_eq_some_iff.mp ha).1]
    exact ha
  rcases h k v hv with ⟨ha, hnone⟩ | ⟨j, hj, ha, hsome, hvj⟩
  · exact Or.inl ⟨hlater _ ha, hnone⟩
  · refine Or.inr ⟨j, hj, hlater _ ha, hsome, ?_⟩
    rw [List.getElem?_append_left (by omega)] at hvj
    exact hvj

theorem Agrees.snoc {answers : List (Option ℕ)} {vals : List (Option β)} (h : Agrees answers vals)
    (hlen : vals.length = answers.length) {a : Option ℕ} {v : Option β}
    (hlast : (a = none ∧ v = none) ∨ ∃ j, a = some j ∧ j ≤ vals.length ∧ v.isSome ∧ valueOf (vals ++ [v]) j = v) :
    Agrees (answers ++ [a]) (vals ++ [v]) := by
  intro k w hw
  by_cases hk : k < vals.length
  · rw [List.getElem?_append_left hk] at hw
    have hlater : ∀ (i : ℕ), i < answers.length → (answers ++ [a])[i]? = answers[i]? := fun i hi =>
      List.getElem?_append_left hi
    rcases h k w hw with ⟨ha, hnone⟩ | ⟨j, hj, ha, hsome, hvj⟩
    · exact Or.inl ⟨by rw [hlater k (by omega)]; exact ha, hnone⟩
    · exact Or.inr ⟨j, hj, by rw [hlater k (by omega)]; exact ha, hsome,
        by rw [List.getElem?_append_left (by omega)]; exact hvj⟩
  · have hkeq : k = vals.length := by
      have hlt := (List.getElem?_eq_some_iff.mp hw).1
      rw [List.length_append, List.length_singleton] at hlt
      omega
    subst hkeq
    rw [List.getElem?_concat_length, Option.some.injEq] at hw
    subst hw
    have hlastans : (answers ++ [a])[vals.length]? = some a := by
      rw [hlen]
      exact List.getElem?_concat_length ..
    rcases hlast with ⟨rfl, hnone⟩ | ⟨j, rfl, hj, hsome, hvj⟩
    · exact Or.inl ⟨hlastans, hnone⟩
    · obtain ⟨w', rfl⟩ := Option.isSome_iff_exists.mp hsome
      exact Or.inr ⟨j, hj, hlastans, rfl, valueOf_eq_some.mp hvj⟩

/-! ### One operation -/

namespace Named

variable {vals : List (Option β)} {c : Cache κ β} {x : Tally κ}

theorem start : Named ([] : List (Option β)) (.empty : Cache κ β) .start :=
  ⟨rfl, fun _ _ hv => (by cases hv), rfl, fun _ hj => (by cases hj), fun _ hj => (by cases hj),
    fun _ hj => (by cases hj)⟩

/-- Whatever is returned later, the numbers in use keep their values. -/
theorem value_later (h : Named vals c x) (v : Option β) {j : ℕ} (hj : j ∈ x.names) :
    valueOf (vals ++ [v]) j = valueOf vals j := valueOf_append (h.made j hj)

/-- What was being filled is being filled. -/
theorem synced_later (h : Named vals c x) (hsync : Synced vals c x) (v : Option β) : Synced (vals ++ [v]) c x := by
  intro w hw
  obtain ⟨j, hj, hval⟩ := hsync w hw
  exact ⟨j, hj, by rw [h.value_later v (List.mem_append_right _ hj), hval]⟩

/-- All values are published. -/
theorem settle (h : Named vals c x) : Named vals c x.settle := by
  have hnames : ∀ j ∈ x.settle.names, j ∈ x.names := by
    intro j hj
    rcases List.mem_append.mp hj with hj | hj
    · exact List.mem_append_left _ hj
    · cases hj
  exact ⟨h.length, h.answered, h.entries, fun j hj => (by cases hj), fun j hj => h.made j (hnames j hj),
    fun j hj j' hj' => h.inj j (hnames j hj) j' (hnames j' hj')⟩

section

variable [DecidableEq κ]

/-- **An insert** of a value that is not in use. -/
theorem insert (h : Named vals c x) {cap : ℕ} (k : κ) (size : ℕ) {v : β}
    (hnew : (FillingCache.Op.insert k size v).New cap c) :
    Named (vals ++ [some v]) (FillingCache.insert cap k size v c).1 (x.ask cap (.insert k size)) := by
  have hlast : valueOf (vals ++ [some v]) x.answers.length = some v := by
    rw [← h.length]
    exact valueOf_last vals (some v)
  have hold : x.cache.entries.map (Entry.map (valueOf (vals ++ [some v])))
      = c.entries.map (Entry.map some) := by
    rw [h.entries]
    refine List.map_congr_left fun e he => ?_
    rw [Entry.map, Entry.map, h.value_later _ (List.mem_append_left _ (List.mem_map_of_mem he))]
  have hentries : (FillingCache.insert cap k size v c).1.entries.map (Entry.map some)
      = (x.ask cap (.insert k size)).cache.entries.map (Entry.map (valueOf (vals ++ [some v]))) := by
    have hboth := LruCache.insert_map (valueOf (vals ++ [some v])) cap ⟨k, size, x.answers.length⟩ x.cache.entries
    rw [hold, show Entry.map (valueOf (vals ++ [some v])) ⟨k, size, x.answers.length⟩
      = Entry.map some ⟨k, size, v⟩ by rw [Entry.map, Entry.map, hlast], LruCache.insert_map] at hboth
    exact congrArg Prod.fst hboth
  -- a number in use afterwards is the new one, or was in use and has another value
  have hnames : ∀ j ∈ (x.ask cap (.insert k size)).names, j = x.answers.length ∨
      (j ∈ x.names ∧ valueOf vals j ≠ some v) := by
    intro j hj
    rcases List.mem_append.mp hj with hj | hj
    · obtain ⟨y, hy, rfl⟩ := List.mem_map.mp hj
      rcases List.mem_cons.mp hy with rfl | hkept
      · exact Or.inl rfl
      · have hmem := (List.mem_filter.mp ((LruCache.insert_sublist cap _ _).subset hkept)).1
        have hname : y.val ∈ x.names := List.mem_append_left _ (List.mem_map_of_mem hmem)
        refine Or.inr ⟨hname, fun heq => ?_⟩
        -- the entry of `v` would be there twice
        have htail := (List.cons_eq_cons.mp hentries).2
        have hin := List.mem_map_of_mem (f := Entry.map (valueOf (vals ++ [some v]))) hkept
        rw [← htail] at hin
        obtain ⟨e, he, hmap⟩ := List.mem_map.mp hin
        have hval : some e.val = some v := by
          rw [← heq, ← h.value_later (some v) hname]
          exact congrArg Entry.val hmap
        exact (List.nodup_cons.mp hnew.1).1 (List.mem_map.mpr ⟨e, he, Option.some.inj hval⟩)
    · rcases List.mem_cons.mp hj with rfl | hj
      · exact Or.inl rfl
      · refine Or.inr ⟨List.mem_append_right _ hj, fun heq => ?_⟩
        obtain ⟨w, hw, hval⟩ := h.filling j hj
        rw [heq] at hval
        exact hnew.2 (Option.some.inj hval ▸ hw)
  refine ⟨?_, ?_, hentries, ?_, ?_, ?_⟩
  · rw [Tally.ask, List.length_append, List.length_append, h.length]
    rfl
  · refine h.answered.snoc h.length (Or.inr ⟨x.answers.length, rfl, h.length.ge, rfl, hlast⟩)
  · intro j hj
    rcases List.mem_cons.mp hj with rfl | hj
    · exact ⟨v, List.mem_cons_self, hlast⟩
    · obtain ⟨w, hw, hval⟩ := h.filling j hj
      exact ⟨w, List.mem_cons_of_mem v hw, by rw [h.value_later _ (List.mem_append_right _ hj), hval]⟩
  · intro j hj
    rw [List.length_append, List.length_singleton]
    rcases hnames j hj with rfl | ⟨hold, -⟩
    · rw [h.length]
      exact Nat.lt_succ_self _
    · exact Nat.lt_succ_of_lt (h.made j hold)
  · intro j hj j' hj' heq
    rcases hnames j hj with rfl | ⟨hold, hne⟩
    · rcases hnames j' hj' with rfl | ⟨hold', hne'⟩
      · rfl
      · rw [hlast, h.value_later _ hold'] at heq
        exact absurd heq.symm hne'
    · rcases hnames j' hj' with rfl | ⟨hold', -⟩
      · rw [hlast, h.value_later _ hold] at heq
        exact absurd heq hne
      · rw [h.value_later _ hold, h.value_later _ hold'] at heq
        exact h.inj j hold j' hold' heq

end

variable [DecidableEq β]

/-- **A value of an earlier round is published**, or one that no request of this round has inserted. -/
theorem publish (h : Named vals c x) {v : β} (hv : ∀ j ∈ x.cache.filling, valueOf vals j ≠ some v) :
    Named vals (FillingCache.publish v c).1 x := by
  refine ⟨h.length, h.answered, h.entries, fun j hj => ?_, h.made, h.inj⟩
  obtain ⟨w, hw, hval⟩ := h.filling j hj
  refine ⟨w, List.mem_filter.mpr ⟨hw, decide_eq_true ?_⟩, hval⟩
  rintro rfl
  exact hv j hj hval

variable [DecidableEq κ]

/-- A lookup finds nothing in both, or the value of the same insert. -/
theorem hit (h : Named vals c x) (k : κ) (hsync : Synced vals c x) :
    ((FillingCache.lookup k x.cache).2.hit = none ∧ (FillingCache.lookup k c).2.hit = none) ∨
      ∃ j ∈ x.names, (FillingCache.lookup k x.cache).2.hit = some j ∧
        (FillingCache.lookup k c).2.hit = valueOf vals j ∧ (valueOf vals j).isSome := by
  have hboth : LruCache.lookup k (c.entries.map (Entry.map some))
      = LruCache.lookup k (x.cache.entries.map (Entry.map (valueOf vals))) := by rw [h.entries]
  rw [LruCache.lookup_map, LruCache.lookup_map, Prod.mk.injEq] at hboth
  have hfound := hboth.1
  simp only [FillingCache.lookup]
  cases hx : (LruCache.lookup k x.cache.entries).1 with
  | none =>
      rw [hx, Option.map_none, Option.map_eq_none_iff] at hfound
      rw [hfound]
      exact Or.inl ⟨rfl, rfl⟩
  | some e' =>
      rw [hx, Option.map_some, Option.map_eq_some_iff] at hfound
      obtain ⟨e, hc, heq⟩ := hfound
      have hval : some e.val = valueOf vals e'.val := congrArg Entry.val heq
      have hmem : e'.val ∈ x.names := List.mem_append_left _ (List.mem_map_of_mem (LruCache.mem_of_lookup hx))
      have hiff : e.val ∈ c.filling ↔ e'.val ∈ x.cache.filling := by
        constructor
        · intro hin
          obtain ⟨j, hj, heq⟩ := hsync e.val hin
          rwa [← h.inj j (List.mem_append_right _ hj) e'.val hmem (heq.trans hval)]
        · intro hin
          obtain ⟨v, hv, heq⟩ := h.filling e'.val hin
          rwa [← Option.some.inj (heq.symm.trans hval.symm)]
      rw [hc]
      by_cases hin : e'.val ∈ x.cache.filling
      · exact Or.inl ⟨by simp [hin], by simp [hiff.mpr hin]⟩
      · have hout : e.val ∉ c.filling := fun hv => hin (hiff.mp hv)
        exact Or.inr ⟨e'.val, hmem, by simp [hin], by simp [hout, ← hval], by rw [← hval]; rfl⟩

/-- **A lookup.** -/
theorem lookup (h : Named vals c x) {cap : ℕ} (k : κ) (hsync : Synced vals c x) :
    Named (vals ++ [(FillingCache.lookup k c).2.hit]) (FillingCache.lookup k c).1 (x.ask cap (.lookup k)) := by
  have hnames : ∀ j ∈ (x.ask cap (.lookup k)).names, j ∈ x.names := by
    intro j hj
    rcases List.mem_append.mp hj with hj | hj
    · obtain ⟨e, he, rfl⟩ := List.mem_map.mp hj
      exact List.mem_append_left _ (List.mem_map_of_mem (LruCache.mem_of_mem_lookup he))
    · exact List.mem_append_right _ hj
  have hkeep : ∀ j ∈ (x.ask cap (.lookup k)).names, valueOf (vals ++ [(FillingCache.lookup k c).2.hit]) j
      = valueOf vals j := fun j hj => h.value_later _ (hnames j hj)
  refine ⟨?_, ?_, ?_, ?_, ?_, ?_⟩
  · rw [Tally.ask, List.length_append, List.length_append, h.length]
    rfl
  · refine h.answered.snoc h.length ?_
    rcases h.hit k hsync with ⟨hx, hc⟩ | ⟨j, hj, hx, hc, hsome⟩
    · exact Or.inl ⟨hx, hc⟩
    · refine Or.inr ⟨j, hx, (h.made j hj).le, ?_, ?_⟩
      · rw [hc]
        exact hsome
      · rw [h.value_later _ hj, hc]
  · have hboth : LruCache.lookup k (c.entries.map (Entry.map some))
        = LruCache.lookup k (x.cache.entries.map (Entry.map (valueOf vals))) := by rw [h.entries]
    rw [LruCache.lookup_map, LruCache.lookup_map, Prod.mk.injEq] at hboth
    refine hboth.2.trans (List.map_congr_left fun e he => ?_)
    rw [Entry.map, Entry.map, hkeep e.val (List.mem_append_left _ (List.mem_map_of_mem he))]
  · intro j hj
    obtain ⟨v, hv, hval⟩ := h.filling j hj
    exact ⟨v, hv, by rw [hkeep j (List.mem_append_right _ hj), hval]⟩
  · intro j hj
    rw [List.length_append]
    exact Nat.lt_add_right _ (h.made j (hnames j hj))
  · intro j hj j' hj' heq
    rw [hkeep j hj, hkeep j' hj'] at heq
    exact h.inj j (hnames j hj) j' (hnames j' hj') heq

/-- **A request.** -/
theorem request (h : Named vals c x) (hsync : Synced vals c x) {cap : ℕ} {op : FillingCache.Op κ β} {a : Ask κ}
    (ha : op.ask = some a) (hnew : op.New cap c) :
    Named (vals ++ [op.returns (op.run cap c).2]) (op.run cap c).1 (x.ask cap a) ∧
      Synced (vals ++ [op.returns (op.run cap c).2]) (op.run cap c).1 (x.ask cap a) := by
  cases op with
  | lookup k =>
      cases ha
      exact ⟨h.lookup k hsync, h.synced_later hsync _⟩
  | insert k size v =>
      cases ha
      refine ⟨h.insert k size hnew, fun w hw => ?_⟩
      rcases List.mem_cons.mp hw with rfl | hw
      · refine ⟨_, List.mem_cons_self, ?_⟩
        rw [← h.length]
        exact valueOf_last vals _
      · obtain ⟨j, hj, hval⟩ := h.synced_later hsync (some v) w hw
        exact ⟨j, List.mem_cons_of_mem _ hj, hval⟩
  | publish v => cases ha

end Named

/-! ### Rounds -/

namespace Tally

variable [DecidableEq κ] {cap : ℕ}

theorem serve_append (x : Tally κ) (as bs : List (Ask κ)) :
    x.serve cap (as ++ bs) = (x.serve cap as).serve cap bs := List.foldl_append ..

theorem rounds_append (x : Tally κ) (bs bs' : List (List (Ask κ))) :
    x.rounds cap (bs ++ bs') = (x.rounds cap bs).rounds cap bs' := List.foldl_append ..

/-- Between two rounds nothing is being filled. -/
theorem filling_rounds {x : Tally κ} (hx : x.cache.filling = []) (bs : List (List (Ask κ))) :
    (x.rounds cap bs).cache.filling = [] := by
  induction bs generalizing x with
  | nil => exact hx
  | cons b bs ih => exact ih rfl

/-- Answers stay. -/
theorem answers_ask (x : Tally κ) (a : Ask κ) : x.answers <+: (x.ask cap a).answers := by
  cases a with
  | lookup k => exact List.prefix_append _ _
  | insert k size => exact List.prefix_append _ _

theorem answers_serve (x : Tally κ) (as : List (Ask κ)) : x.answers <+: (x.serve cap as).answers := by
  induction as generalizing x with
  | nil => exact List.prefix_rfl
  | cons a as ih => exact (x.answers_ask a).trans (ih (x.ask cap a))

theorem answers_rounds (x : Tally κ) (bs : List (List (Ask κ))) :
    x.answers <+: (x.rounds cap bs).answers := by
  induction bs generalizing x with
  | nil => exact List.prefix_rfl
  | cons b bs ih => exact (x.answers_serve b).trans (ih (x.serve cap b).settle)

end Tally

end FillingCache
