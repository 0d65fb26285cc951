import SmpHashTable.Responses

/-!
# The loop that writes the responses

`write_iovs` as the code has it: it changes `iov_base` and `iov_len` of the array in place, keeps the
address of the current entry in `ciov_base`, and releases the values in three places.  A step is one
`writev` with the inner loop behind it.  The array is compared with the list of what is left to write
that the client threads use (`progress`).
-/

namespace SmpHashTable

namespace HashServer

/-! ### The function -/

/-- `struct iovec`, as an address and a length. -/
structure Iovec where
  base : ℕ
  len : ℕ
  deriving DecidableEq, Repr

/-- The local variables of `write_iovs`, and its return value. -/
structure WriteIovs where
  iov : ℕ → Iovec
  iovcnt : ℕ
  ciov : ℕ
  ciovBase : ℕ
  ret : Option ℕ

inductive IovEvent
  /-- `writev` has accepted bytes. -/
  | accepted (bytes : List UInt8)
  /-- A call of `release_value`. -/
  | released (ptr : ℕ)
  /-- `writev` has failed. -/
  | failed
  deriving DecidableEq, Repr

/-- `if (base != &NULL_VALUE) release_value(client_id, base)`. -/
def releaseBase (null base : ℕ) : List IovEvent := if base ≠ null then [.released base] else []

/-- The bytes of an entry. -/
def Iovec.content (mem : ℕ → UInt8) (v : Iovec) : List UInt8 :=
  (List.range v.len).map fun i => mem (v.base + i)

namespace WriteIovs

/-- The `while (r > 0)` loop.  Every round but the last moves `ciov` on, so the fuel is the number of
entries left. -/
def advance (null : ℕ) : ℕ → ℕ → WriteIovs → WriteIovs × List IovEvent
  | 0, _, st => (st, [])
  | fuel + 1, r, st =>
      if r > 0 then
        let v := st.iov st.ciov
        if r ≥ v.len then
          let st := { st with ciov := st.ciov + 1 }
          if st.ciov = st.iovcnt then (st, [])
          else
            let (st', evs) := advance null fuel (r - v.len) { st with ciovBase := (st.iov st.ciov).base }
            (st', releaseBase null st.ciovBase ++ evs)
        else ({ st with iov := Function.update st.iov st.ciov ⟨v.base + r, v.len - r⟩ }, [])
      else (st, [])

/-- What follows the outer loop. -/
def finish (null : ℕ) (st : WriteIovs) (ret : ℕ) : WriteIovs × List IovEvent :=
  ({ st with ret := some ret },
    releaseBase null st.ciovBase ++
      (List.range' (st.ciov + 1) (st.iovcnt - (st.ciov + 1))).flatMap fun i =>
        releaseBase null (st.iov i).base)

/-- The entries given to `writev`. -/
def remaining (st : WriteIovs) : List Iovec := (List.range' st.ciov (st.iovcnt - st.ciov)).map st.iov

/-- One round of the outer loop: a `writev` and what follows it. -/
def step (null : ℕ) (mem : ℕ → UInt8) (st : WriteIovs) (out : Writev) :
    Except ServerStop (WriteIovs × List IovEvent) :=
  if st.ret.isSome then .error .notEnabled
  else
    match out with
    | .fail =>
        let (st, evs) := st.finish null 2
        .ok (st, .failed :: evs)
    | .again => .ok (st, [])
    | .wrote n =>
        let bytes := (st.remaining.flatMap (Iovec.content mem)).take n
        let (st, evs) := st.advance null (st.iovcnt - st.ciov) n
        if st.ciov < st.iovcnt then .ok (st, .accepted bytes :: evs)
        else
          let (st, evs') := st.finish null 0
          .ok (st, .accepted bytes :: evs ++ evs')

/-- The start, on a list of entries that is not empty. -/
def start (iovs : List Iovec) : WriteIovs :=
  let iov := fun i => iovs.getD i ⟨0, 0⟩
  ⟨iov, iovs.length, 0, (iov 0).base, none⟩

/-- `writev` accepts at most the bytes it is given. -/
def Ok (st : WriteIovs) : Writev → Prop
  | .wrote n => n ≤ (st.remaining.map Iovec.len).sum
  | .again => True
  | .fail => True

instance Writev.decidableOk (st : WriteIovs) : (out : Writev) → Decidable (st.Ok out)
  | .wrote _ => inferInstanceAs (Decidable (_ ≤ _))
  | .again => inferInstanceAs (Decidable True)
  | .fail => inferInstanceAs (Decidable True)

/-- The runs. -/
def Reach (null : ℕ) (mem : ℕ → UInt8) (iovs : List Iovec) : WriteIovs → List IovEvent → Prop :=
  Runs.Reach (step null mem) (fun st _ out => st.Ok out) (start iovs)

end WriteIovs

/-! ### What a log says -/

/-- The bytes accepted. -/
def acceptedBytes (log : List IovEvent) : List UInt8 := log.flatMap fun
  | .accepted bytes => bytes
  | _ => []

/-- The addresses passed to `release_value`. -/
def releasedPtrs (log : List IovEvent) : List ℕ := log.filterMap fun
  | .released ptr => some ptr
  | _ => none

/-! ### The array as a list of what is left -/

/-- The entry `v`, for the value at `base`. -/
def Iovec.toIov (null : ℕ) (mem : ℕ → UInt8) (base : ℕ) (v : Iovec) : Iov :=
  ⟨if base ≠ null then some base else none, v.content mem, none⟩

/-- The entries of a list. -/
def entries (null : ℕ) (mem : ℕ → UInt8) (iovs : List Iovec) : List Iov :=
  iovs.map fun v => v.toIov null mem v.base

/-- What is left to write: the current entry belongs to the value at `ciov_base`. -/
def WriteIovs.view (null : ℕ) (mem : ℕ → UInt8) (st : WriteIovs) : List Iov :=
  match st.remaining with
  | [] => []
  | v :: rest => v.toIov null mem st.ciovBase :: entries null mem rest

/-- The releases of the values in a list. -/
def releasesOf (iovs : List Iov) : List IovEvent := (values iovs).map .released

theorem releasesOf_append (l l' : List Iov) : releasesOf (l ++ l') = releasesOf l ++ releasesOf l' := by
  simp [releasesOf, values]

theorem releasesOf_cons (v : Iov) (l : List Iov) : releasesOf (v :: l) = releasesOf [v] ++ releasesOf l :=
  releasesOf_append [v] l

theorem releaseBase_eq (null base : ℕ) (mem : ℕ → UInt8) (v : Iovec) :
    releaseBase null base = releasesOf [v.toIov null mem base] := by
  unfold releaseBase releasesOf values Iovec.toIov
  by_cases h : base = null
  · simp [h]
  · simp [h]

/-- The bytes of an entry after `r` of them. -/
theorem Iovec.content_drop (mem : ℕ → UInt8) (v : Iovec) (r : ℕ) :
    Iovec.content mem ⟨v.base + r, v.len - r⟩ = (v.content mem).drop r := by
  show (List.range (v.len - r)).map (fun i => mem (v.base + r + i)) = _
  apply List.ext_getElem?
  intro i
  rw [List.getElem?_drop, Iovec.content]
  by_cases hi : r + i < v.len
  · rw [List.getElem?_map, List.getElem?_map, List.getElem?_range (by omega), List.getElem?_range hi,
      Option.map_some, Option.map_some, Nat.add_assoc]
  · rw [List.getElem?_eq_none (by rw [List.length_map, List.length_range]; omega),
      List.getElem?_eq_none (by rw [List.length_map, List.length_range]; omega)]

namespace WriteIovs

section

variable {st : WriteIovs}

theorem remaining_cons (h : st.ciov < st.iovcnt) : st.remaining
    = st.iov st.ciov :: (List.range' (st.ciov + 1) (st.iovcnt - (st.ciov + 1))).map st.iov := by
  unfold remaining
  rw [show st.iovcnt - st.ciov = st.iovcnt - (st.ciov + 1) + 1 from by omega, List.range'_succ,
    List.map_cons]

theorem remaining_nil (h : ¬ st.ciov < st.iovcnt) : st.remaining = [] := by
  unfold remaining
  rw [show st.iovcnt - st.ciov = 0 from by omega]
  rfl

variable (null : ℕ) (mem : ℕ → UInt8)

theorem view_cons (h : st.ciov < st.iovcnt) : st.view null mem
    = (st.iov st.ciov).toIov null mem st.ciovBase ::
      entries null mem ((List.range' (st.ciov + 1) (st.iovcnt - (st.ciov + 1))).map st.iov) := by
  unfold view
  rw [remaining_cons h]

theorem view_nil (h : ¬ st.ciov < st.iovcnt) : st.view null mem = [] := by
  unfold view
  rw [remaining_nil h]

/-- When `ciov` and `ciov_base` move on, the first entry goes. -/
theorem view_next (h : st.ciov < st.iovcnt) : (st.view null mem).tail
    = view null mem { st with ciov := st.ciov + 1, ciovBase := (st.iov (st.ciov + 1)).base } := by
  rw [view_cons null mem h]
  show entries null mem _ = _
  by_cases hlast : st.ciov + 1 < st.iovcnt
  · rw [view_cons null mem hlast, show st.iovcnt - (st.ciov + 1) = st.iovcnt - (st.ciov + 1 + 1) + 1 from by omega,
      List.range'_succ]
    rfl
  · rw [view_nil null mem hlast, show st.iovcnt - (st.ciov + 1) = 0 from by omega]
    rfl

/-- The current entry after `r` bytes of it. -/
theorem view_update (h : st.ciov < st.iovcnt) (r : ℕ) :
    view null mem { st with
        iov := Function.update st.iov st.ciov ⟨(st.iov st.ciov).base + r, (st.iov st.ciov).len - r⟩ }
      = (match st.view null mem with
        | [] => []
        | v :: rest => { v with left := v.left.drop r } :: rest) := by
  have hrest : (List.range' (st.ciov + 1) (st.iovcnt - (st.ciov + 1))).map
        (Function.update st.iov st.ciov ⟨(st.iov st.ciov).base + r, (st.iov st.ciov).len - r⟩)
      = (List.range' (st.ciov + 1) (st.iovcnt - (st.ciov + 1))).map st.iov := by
    apply List.map_congr_left
    intro i hi
    have hle := (List.mem_range'_1.mp hi).1
    rw [Function.update_of_ne (by omega)]
  have hnew : ∀ iov : ℕ → Iovec, view null mem { st with iov := iov }
      = (iov st.ciov).toIov null mem st.ciovBase ::
        entries null mem ((List.range' (st.ciov + 1) (st.iovcnt - (st.ciov + 1))).map iov) :=
    fun iov => view_cons null mem h
  rw [hnew, view_cons null mem h, Function.update_self, hrest]
  unfold Iovec.toIov
  rw [Iovec.content_drop]

/-- What follows the loop releases the values of what is left. -/
theorem finish_releases (h : st.ciov < st.iovcnt) (ret : ℕ) :
    (st.finish null ret).2 = releasesOf (st.view null mem) := by
  rw [view_cons null mem h, releasesOf_cons, ← releaseBase_eq]
  show releaseBase null st.ciovBase ++ _ = _
  congr 1
  induction List.range' (st.ciov + 1) (st.iovcnt - (st.ciov + 1)) with
  | nil => rfl
  | cons i is ih =>
    rw [List.flatMap_cons, ih, releaseBase_eq null (st.iov i).base mem (st.iov i)]
    exact (releasesOf_cons _ _).symm

/-- After the last entry it only releases `ciov_base`. -/
theorem finish_end (h : st.ciov = st.iovcnt) (ret : ℕ) :
    (st.finish null ret).2 = releaseBase null st.ciovBase := by
  show releaseBase null st.ciovBase ++ _ = _
  rw [show st.iovcnt - (st.ciov + 1) = 0 from by omega]
  exact List.append_nil _

end

end WriteIovs

/-! ### The inner loop -/

theorem progress_zero (iovs : List Iov) : progress 0 iovs = ([], iovs) := by
  cases iovs with
  | nil => rfl
  | cons v rest =>
    rw [progress.eq_def]
    exact if_pos rfl

theorem progress_last {n : ℕ} {v : Iov} (hn : n ≠ 0) (hle : v.left.length ≤ n) :
    progress n [v] = ([v], []) := by
  simp [progress, hn, hle]

theorem progress_next {n : ℕ} {v w : Iov} (rest : List Iov) (hn : n ≠ 0) (hle : v.left.length ≤ n) :
    progress n (v :: w :: rest) = (v :: (progress (n - v.left.length) (w :: rest)).1,
      (progress (n - v.left.length) (w :: rest)).2) := by
  rw [progress.eq_def]
  simp [hn, hle]

theorem progress_inside {n : ℕ} {v : Iov} (rest : List Iov) (hn : n ≠ 0) (hlt : ¬ v.left.length ≤ n) :
    progress n (v :: rest) = ([], { v with left := v.left.drop n } :: rest) := by
  rw [progress.eq_def]
  simp [hn, hlt]

/-- **The inner loop is `progress` (proved).**  It leaves in the array what `progress` leaves in the
list, and releases the values that `progress` hands over; the last one of all is left to the end of
the function. -/
theorem WriteIovs.advance_spec (null : ℕ) (mem : ℕ → UInt8) {fuel : ℕ} (st : WriteIovs) (r : ℕ)
    (h : st.ciov < st.iovcnt) (hfuel : fuel = st.iovcnt - st.ciov) :
    ∃ st' evs, st.advance null fuel r = (st', evs) ∧ st'.iovcnt = st.iovcnt ∧ st'.ret = st.ret ∧
      st'.ciov = st.ciov + (progress r (st.view null mem)).1.length ∧ st'.ciov ≤ st'.iovcnt ∧
      st'.view null mem = (progress r (st.view null mem)).2 ∧
      evs ++ (if st'.ciov < st'.iovcnt then [] else releaseBase null st'.ciovBase)
        = releasesOf (progress r (st.view null mem)).1 := by
  induction fuel generalizing st r with
  | zero => omega
  | succ fuel ih =>
    have hview := view_cons null mem h
    have hlen : ((st.iov st.ciov).toIov null mem st.ciovBase).left.length = (st.iov st.ciov).len := by
      simp [Iovec.toIov, Iovec.content]
    by_cases hr : r = 0
    · subst hr
      rw [progress_zero]
      refine ⟨st, [], ?_, rfl, rfl, rfl, h.le, rfl, ?_⟩
      · rw [advance, if_neg (by omega)]
      · rw [if_pos h]
        rfl
    · by_cases hle : (st.iov st.ciov).len ≤ r
      · by_cases hlast : st.ciov + 1 = st.iovcnt
        · have hrest : entries null mem ((List.range' (st.ciov + 1) (st.iovcnt - (st.ciov + 1))).map st.iov)
              = [] := by
            rw [show st.iovcnt - (st.ciov + 1) = 0 from by omega]
            rfl
          rw [hview, hrest, progress_last hr (by rw [hlen]; exact hle)]
          refine ⟨{ st with ciov := st.ciov + 1 }, [], ?_, rfl, rfl, rfl, hlast.le, ?_, ?_⟩
          · rw [advance, if_pos (by omega)]
            simp only [ge_iff_le, if_pos hle, if_pos hlast]
          · exact view_nil null mem (by show ¬ st.ciov + 1 < st.iovcnt; omega)
          · show [] ++ (if st.ciov + 1 < st.iovcnt then _ else releaseBase null st.ciovBase) = _
            rw [if_neg (by omega), List.nil_append]
            exact releaseBase_eq _ _ _ _
        · have hlt : st.ciov + 1 < st.iovcnt := by omega
          have hnext := view_next null mem h
          have hfuel' : fuel = st.iovcnt - (st.ciov + 1) := by omega
          obtain ⟨st', evs, hrun, hcnt, hret, hciov, hbound, hcur, hevs⟩ :=
            ih { st with ciov := st.ciov + 1, ciovBase := (st.iov (st.ciov + 1)).base }
              (r - (st.iov st.ciov).len) hlt hfuel'
          rw [← hnext] at hciov hcur hevs
          have hsplit : progress r (st.view null mem)
              = ((st.iov st.ciov).toIov null mem st.ciovBase ::
                  (progress (r - (st.iov st.ciov).len) (st.view null mem).tail).1,
                (progress (r - (st.iov st.ciov).len) (st.view null mem).tail).2) := by
            obtain ⟨w, rest, htail⟩ : ∃ w rest, (st.view null mem).tail = w :: rest :=
              ⟨_, _, hnext.trans (view_cons null mem hlt)⟩
            rw [htail]
            rw [hview, List.tail_cons] at htail
            rw [hview, htail, progress_next _ hr (by rw [hlen]; exact hle), hlen]
          rw [hsplit]
          refine ⟨st', releaseBase null st.ciovBase ++ evs, ?_, hcnt, hret, ?_, hbound, hcur, ?_⟩
          · rw [advance, if_pos (by omega)]
            simp only [ge_iff_le, if_pos hle, if_neg hlast]
            rw [hrun]
          · rw [hciov, List.length_cons]
            show st.ciov + 1 + _ = _
            omega
          · rw [releasesOf_cons, List.append_assoc, hevs, ← releaseBase_eq]
      · have hprog : progress r (st.view null mem) = ([], match st.view null mem with
            | [] => []
            | v :: rest => { v with left := v.left.drop r } :: rest) := by
          rw [hview, progress_inside _ hr (by rw [hlen]; exact hle)]
        rw [hprog]
        refine ⟨{ st with
          iov := Function.update st.iov st.ciov ⟨(st.iov st.ciov).base + r, (st.iov st.ciov).len - r⟩ },
          [], ?_, rfl, rfl, rfl, h.le, view_update null mem h r, ?_⟩
        · rw [advance, if_pos (by omega)]
          simp only [ge_iff_le, if_neg hle]
        · rw [if_pos h]
          rfl

/-- Where `progress` stops: it hands over the entries before `x`, and `b` bytes of `x` are done. -/
theorem progress_split {n : ℕ} {iovs : List Iov} (hn : n ≤ (bytes iovs).length) :
    (progress n iovs = (iovs, []) ∧ n = (bytes iovs).length) ∨
    ∃ done x rest b, iovs = done ++ x :: rest ∧
      progress n iovs = (done, { x with left := x.left.drop b } :: rest) ∧
      n = (bytes done).length + b ∧ b ≤ x.left.length := by
  induction iovs generalizing n with
  | nil =>
    left
    have hzero : n = 0 := Nat.le_zero.mp hn
    subst hzero
    exact ⟨progress_zero [], rfl⟩
  | cons v rest ih =>
    rw [bytes_cons, List.length_append] at hn ⊢
    by_cases h0 : n = 0
    · subst h0
      exact Or.inr ⟨[], v, rest, 0, rfl, progress_zero _, rfl, Nat.zero_le _⟩
    · by_cases hle : v.left.length ≤ n
      · cases rest with
        | nil =>
          left
          have hlen : (bytes []).length = 0 := rfl
          exact ⟨progress_last h0 hle, by omega⟩
        | cons w rest =>
          rcases ih (n := n - v.left.length) (by omega) with ⟨hprog, hlen⟩ | ⟨done, x, rest', b, hsplit, hprog, hlen, hb⟩
          · left
            rw [progress_next rest h0 hle, hprog]
            exact ⟨rfl, by omega⟩
          · right
            refine ⟨v :: done, x, rest', b, by rw [hsplit]; rfl, ?_, ?_, hb⟩
            · rw [progress_next rest h0 hle, hprog]
            · rw [bytes_cons, List.length_append]
              omega
      · exact Or.inr ⟨[], v, rest, n, rfl, progress_inside rest h0 hle, (Nat.zero_add n).symm, by omega⟩

/-! ### The invariant -/

theorem acceptedBytes_append (log evs : List IovEvent) :
    acceptedBytes (log ++ evs) = acceptedBytes log ++ acceptedBytes evs := List.flatMap_append

theorem releasedPtrs_append (log evs : List IovEvent) :
    releasedPtrs (log ++ evs) = releasedPtrs log ++ releasedPtrs evs := List.filterMap_append

theorem acceptedBytes_releasesOf (iovs : List Iov) : acceptedBytes (releasesOf iovs) = [] := by
  unfold releasesOf
  induction values iovs with
  | nil => rfl
  | cons ptr ptrs ih => exact ih

theorem releasedPtrs_releasesOf (iovs : List Iov) : releasedPtrs (releasesOf iovs) = values iovs := by
  unfold releasesOf
  induction values iovs with
  | nil => rfl
  | cons ptr ptrs ih => exact congrArg (ptr :: ·) ih

theorem values_append (l l' : List Iov) : values (l ++ l') = values l ++ values l' :=
  List.filterMap_append

theorem bytes_append (l l' : List Iov) : bytes (l ++ l') = bytes l ++ bytes l' := List.flatMap_append

/-- Before `writev` fails, a value is released after those before it in the list and after its own
last byte was accepted. -/
def Timed (whole : List Iov) (log : List IovEvent) : Prop :=
  ∀ pre post ptr, log = pre ++ .released ptr :: post → .failed ∈ pre ∨
    ∃ k y, whole[k]? = some y ∧ y.value = some ptr ∧ releasedPtrs pre = values (whole.take k) ∧
      (bytes (whole.take (k + 1))).length ≤ (acceptedBytes pre).length

/-- What holds in the loop: the entries `gone` are written and their values released, and `a` bytes of
the entry `v` are written. -/
structure WriteInv (null : ℕ) (mem : ℕ → UInt8) (whole : List Iov) (st : WriteIovs) (log : List IovEvent)
    (gone : List Iov) (v : Iov) (tail : List Iov) (a : ℕ) : Prop where
  ret : st.ret = none
  ciov : st.ciov < st.iovcnt
  split : whole = gone ++ v :: tail
  view : st.view null mem = { v with left := v.left.drop a } :: tail
  le : a ≤ v.left.length
  accepted : acceptedBytes log = bytes gone ++ v.left.take a
  released : releasedPtrs log = values gone
  timed : Timed whole log

/-- What holds when the function has returned. -/
structure WriteDone (whole : List Iov) (st : WriteIovs) (log : List IovEvent) (r : ℕ) : Prop where
  ret : st.ret = some r
  code : r = 0 ∨ r = 2
  accepted : acceptedBytes log <+: bytes whole
  complete : r = 0 → acceptedBytes log = bytes whole
  released : releasedPtrs log = values whole
  timed : Timed whole log

/-- Where a value is released in a list of releases. -/
theorem releasesOf_split {iovs : List Iov} {pre post : List IovEvent} {ptr : ℕ}
    (h : releasesOf iovs = pre ++ .released ptr :: post) :
    ∃ l y l', iovs = l ++ y :: l' ∧ y.value = some ptr ∧ pre = releasesOf l := by
  obtain ⟨p₁, p₂, hsplit, hpre, hpost⟩ := List.map_eq_append_iff.mp h
  obtain ⟨ptr', p₃, rfl, hptr, -⟩ := List.map_eq_cons_iff.mp hpost
  cases hptr
  obtain ⟨l₁, l₂, rfl, hl₁, hl₂⟩ := List.filterMap_eq_append_iff.mp hsplit
  obtain ⟨l₃, y, l₄, rfl, hnone, hy, -⟩ := List.filterMap_eq_cons_iff.mp hl₂
  refine ⟨l₁ ++ l₃, y, l₄, (List.append_assoc _ _ _).symm, hy, ?_⟩
  have hvals : values (l₁ ++ l₃) = p₁ := by
    have hempty : values l₃ = [] := List.filterMap_eq_nil_iff.mpr hnone
    rw [values_append, hempty, List.append_nil]
    exact hl₁
  rw [← hpre, ← hvals]
  rfl

section

variable {null : ℕ} {mem : ℕ → UInt8} {whole : List Iov} {st : WriteIovs} {log : List IovEvent}
  {gone tail : List Iov} {v : Iov} {a : ℕ}

/-- The values of the list are those written and those left. -/
theorem WriteInv.values_eq (h : WriteInv null mem whole st log gone v tail a) :
    values gone ++ values (st.view null mem) = values whole := by
  rw [h.split, h.view, values_append]
  rfl

theorem WriteInv.bytes_eq (h : WriteInv null mem whole st log gone v tail a) :
    acceptedBytes log ++ bytes (st.view null mem) = bytes whole := by
  rw [h.accepted, h.view, h.split, bytes_append, bytes_cons, bytes_cons, List.append_assoc]
  show bytes gone ++ (v.left.take a ++ (v.left.drop a ++ bytes tail)) = _
  rw [← List.append_assoc (v.left.take a), List.take_append_drop]

/-- The releases behind a `writev` come after the bytes of their values. -/
theorem WriteInv.timed_writev (h : WriteInv null mem whole st log gone v tail a) {out : List UInt8}
    {done rest : List Iov} (hview : st.view null mem = done ++ rest)
    (hlen : (bytes done).length ≤ out.length) : Timed whole (log ++ .accepted out :: releasesOf done) := by
  intro pre post ptr hlog
  rcases List.append_eq_append_iff.mp hlog with ⟨l, hpre, hl⟩ | ⟨l, hlog', hl⟩
  · -- the release is a new one
    cases l with
    | nil => cases hl
    | cons ev l =>
      rw [List.cons_append, List.cons.injEq] at hl
      obtain ⟨rfl, hl⟩ := hl
      right
      obtain ⟨d, y, d', hdone, hy, rfl⟩ := releasesOf_split hl
      have hwhole' : st.view null mem = d ++ y :: (d' ++ rest) := by
        rw [hview, hdone, List.append_assoc]
        rfl
      have hacc : (acceptedBytes pre).length = (bytes gone).length + a + out.length := by
        have hbytes : acceptedBytes (.accepted out :: releasesOf d) = out := by
          show out ++ acceptedBytes (releasesOf d) = out
          rw [acceptedBytes_releasesOf, List.append_nil]
        have hle := h.le
        rw [hpre, acceptedBytes_append, h.accepted, hbytes, List.length_append, List.length_append,
          List.length_take]
        omega
      have hrel : releasedPtrs pre = values gone ++ values d := by
        rw [hpre, releasedPtrs_append, h.released]
        show _ ++ releasedPtrs (releasesOf d) = _
        rw [releasedPtrs_releasesOf]
      have hdlen : (bytes d).length + y.left.length ≤ out.length := by
        rw [hdone, bytes_append, bytes_cons, List.length_append, List.length_append] at hlen
        omega
      have hview' := h.view
      rw [hwhole'] at hview'
      cases d with
      | nil =>
        -- the current entry
        obtain ⟨rfl, htail⟩ := List.cons.inj hview'
        refine ⟨gone.length, v, ?_, hy, ?_, ?_⟩
        · rw [h.split, List.getElem?_append_right le_rfl, Nat.sub_self]
          rfl
        · rw [hrel, h.split, List.take_left' rfl]
          exact List.append_nil _
        · rw [hacc, h.split, List.take_append, List.take_of_length_le (by omega), bytes_append,
            List.length_append, show gone.length + 1 - gone.length = 1 from by omega]
          have hdrop : (bytes []).length + (v.left.drop a).length ≤ out.length := hdlen
          rw [List.length_drop] at hdrop
          show _ + (v.left ++ []).length ≤ _
          rw [List.append_nil]
          omega
      | cons x d =>
        obtain ⟨rfl, htail⟩ := List.cons.inj hview'
        refine ⟨gone.length + (d.length + 1), y, ?_, hy, ?_, ?_⟩
        · rw [h.split, List.getElem?_append_right (by omega), Nat.add_sub_cancel_left, ← htail]
          show (d ++ y :: (d' ++ rest))[d.length]? = some y
          rw [List.getElem?_append_right le_rfl, Nat.sub_self]
          rfl
        · rw [hrel, h.split, List.take_append, List.take_of_length_le (by omega), values_append,
            Nat.add_sub_cancel_left, ← htail]
          show _ = values gone ++ values (v :: (d ++ y :: (d' ++ rest)).take d.length)
          rw [List.take_left' rfl]
          rfl
        · rw [hacc, h.split, List.take_append, List.take_of_length_le (by omega), bytes_append,
            List.length_append, show gone.length + (d.length + 1) + 1 - gone.length = d.length + 2 from by omega,
            ← htail]
          show _ + (bytes (v :: (d ++ y :: (d' ++ rest)).take (d.length + 1))).length ≤ _
          have htake : (d ++ y :: (d' ++ rest)).take (d.length + 1) = d ++ [y] := by
            rw [List.take_append, List.take_of_length_le (by omega),
              show d.length + 1 - d.length = 1 from by omega]
            rfl
          have hx : (bytes ({ v with left := v.left.drop a } :: d)).length
              = v.left.length - a + (bytes d).length := by
            rw [bytes_cons, List.length_append, List.length_drop]
          have hy1 : (bytes [y]).length = y.left.length := by
            rw [bytes_cons]
            show (y.left ++ []).length = _
            rw [List.append_nil]
          have hle := h.le
          rw [htake, bytes_cons, bytes_append, List.length_append, List.length_append, hy1]
          omega
  · -- the release is an old one
    cases l with
    | nil => cases hl
    | cons ev l =>
      obtain ⟨rfl, -⟩ := List.cons.inj hl
      exact h.timed pre l ptr hlog'

/-- The releases after a failure. -/
theorem WriteInv.timed_fail (h : WriteInv null mem whole st log gone v tail a) (evs : List IovEvent) :
    Timed whole (log ++ .failed :: evs) := by
  intro pre post ptr hlog
  rcases List.append_eq_append_iff.mp hlog with ⟨l, hpre, hl⟩ | ⟨l, hlog', hl⟩
  · cases l with
    | nil => cases hl
    | cons ev l =>
      obtain ⟨rfl, -⟩ := List.cons.inj hl
      left
      rw [hpre]
      exact List.mem_append_right _ List.mem_cons_self
  · cases l with
    | nil => cases hl
    | cons ev l =>
      obtain ⟨rfl, -⟩ := List.cons.inj hl
      exact h.timed pre l ptr hlog'

/-- The bytes given to `writev` are those left. -/
theorem remaining_bytes (null : ℕ) (mem : ℕ → UInt8) {st : WriteIovs} (h : st.ciov < st.iovcnt) :
    st.remaining.flatMap (Iovec.content mem) = bytes (st.view null mem) := by
  rw [WriteIovs.view_cons null mem h, WriteIovs.remaining_cons h, List.flatMap_cons, bytes_cons]
  show _ = (st.iov st.ciov).content mem ++ _
  congr 1
  unfold bytes entries
  rw [List.flatMap_map, List.flatMap_map, List.flatMap_map]
  rfl

theorem remaining_len (null : ℕ) (mem : ℕ → UInt8) {st : WriteIovs} (h : st.ciov < st.iovcnt) :
    (st.remaining.map Iovec.len).sum = (bytes (st.view null mem)).length := by
  rw [← remaining_bytes null mem h, List.length_flatMap]
  congr 1
  apply List.map_congr_left
  intro u _
  show u.len = ((List.range u.len).map _).length
  rw [List.length_map, List.length_range]

/-- A `writev` that accepts `n` bytes: the loop goes on behind them, or everything is written. -/
theorem WriteInv.wrote (h : WriteInv null mem whole st log gone v tail a) {n : ℕ}
    (hn : n ≤ (st.remaining.map Iovec.len).sum) {st' : WriteIovs} {evs : List IovEvent}
    (hstep : st.step null mem (.wrote n) = .ok (st', evs)) :
    (∃ gone' v' tail' a', WriteInv null mem whole st' (log ++ evs) gone' v' tail' a') ∨
      WriteDone whole st' (log ++ evs) 0 := by
  rw [remaining_len null mem h.ciov] at hn
  obtain ⟨st₁, evs₁, hadv, hcnt, hret, hciov, hbound, hcur, hevs⟩ := st.advance_spec null mem n h.ciov rfl
  unfold WriteIovs.step at hstep
  rw [h.ret, remaining_bytes null mem h.ciov] at hstep
  simp only [hadv] at hstep
  have hvals := h.values_eq
  have hall := h.bytes_eq
  rcases progress_split hn with ⟨hprog, hlen⟩ | ⟨done, x, rest, b, hview, hprog, hlen, hb⟩
  · -- everything is accepted
    right
    rw [hprog] at hcur hevs hciov
    have hend : ¬ st₁.ciov < st₁.iovcnt := by
      intro hlt
      rw [WriteIovs.view_cons null mem hlt] at hcur
      cases hcur
    rw [if_neg hend] at hevs
    have hstep' : (({ st₁ with ret := some 0 },
        .accepted ((bytes (st.view null mem)).take n) :: evs₁ ++ (st₁.finish null 0).2) :
          WriteIovs × List IovEvent) = (st', evs) := Except.ok.inj ((if_neg hend).symm.trans hstep)
    rw [WriteIovs.finish_end null (by omega) 0, List.take_of_length_le hlen.ge, List.cons_append, hevs] at hstep'
    cases hstep'
    have hacc : acceptedBytes (log ++ .accepted (bytes (st.view null mem)) :: releasesOf (st.view null mem))
        = bytes whole := by
      rw [acceptedBytes_append, ← hall]
      show _ ++ (_ ++ acceptedBytes (releasesOf _)) = _
      rw [acceptedBytes_releasesOf, List.append_nil]
    refine ⟨rfl, Or.inl rfl, by rw [hacc], fun _ => hacc, ?_, ?_⟩
    · rw [releasedPtrs_append, h.released, ← hvals]
      show _ ++ releasedPtrs (releasesOf _) = _
      rw [releasedPtrs_releasesOf]
    · exact h.timed_writev (List.append_nil _).symm le_rfl
  · -- `b` bytes of `x` are accepted
    left
    rw [hprog] at hcur hevs hciov
    have hlt : st₁.ciov < st₁.iovcnt := by
      by_contra hend
      rw [WriteIovs.view_nil null mem hend] at hcur
      cases hcur
    rw [if_pos hlt, List.append_nil] at hevs
    have hstep' : (st₁, .accepted ((bytes (st.view null mem)).take n) :: evs₁) = (st', evs) :=
      Except.ok.inj ((if_pos hlt).symm.trans hstep)
    have hout : (bytes (st.view null mem)).take n = bytes done ++ x.left.take b := by
      rw [hview, bytes_append, bytes_cons, hlen, List.take_append, List.take_of_length_le (by omega),
        Nat.add_sub_cancel_left, List.take_append_of_le_length hb]
    rw [hout, hevs] at hstep'
    cases hstep'
    have htimed : Timed whole (log ++ .accepted (bytes done ++ x.left.take b) :: releasesOf done) :=
      h.timed_writev hview (by rw [List.length_append]; omega)
    have hacc : acceptedBytes (log ++ .accepted (bytes done ++ x.left.take b) :: releasesOf done)
        = bytes gone ++ v.left.take a ++ (bytes done ++ x.left.take b) := by
      rw [acceptedBytes_append, h.accepted]
      show _ ++ (_ ++ acceptedBytes (releasesOf _)) = _
      rw [acceptedBytes_releasesOf, List.append_nil]
    have hrel : releasedPtrs (log ++ .accepted (bytes done ++ x.left.take b) :: releasesOf done)
        = values gone ++ values done := by
      rw [releasedPtrs_append, h.released]
      show _ ++ releasedPtrs (releasesOf _) = _
      rw [releasedPtrs_releasesOf]
    have hret' : st'.ret = none := hret.trans h.ret
    have hview' := h.view
    rw [hview] at hview'
    cases done with
    | nil =>
      -- still the same entry
      obtain ⟨rfl, rfl⟩ := List.cons.inj hview'
      have hle := h.le
      have hb' : b ≤ v.left.length - a := by
        rw [← List.length_drop]
        exact hb
      refine ⟨gone, v, rest, a + b, hret', hlt, h.split, ?_, by omega, ?_, ?_, htimed⟩
      · rw [hcur]
        show ({ v with left := (v.left.drop a).drop b } : Iov) :: rest = _
        rw [List.drop_drop]
      · rw [hacc, List.append_assoc]
        show bytes gone ++ (v.left.take a ++ (v.left.drop a).take b) = _
        rw [← List.take_add]
      · rw [hrel]
        exact List.append_nil _
    | cons y done =>
      obtain ⟨rfl, htail⟩ := List.cons.inj hview'
      refine ⟨gone ++ v :: done, x, rest, b, hret', hlt, ?_, hcur, hb, ?_, ?_, htimed⟩
      · rw [h.split, ← htail, List.append_assoc]
        rfl
      · rw [hacc, bytes_append, bytes_cons, bytes_cons]
        show bytes gone ++ v.left.take a ++ (v.left.drop a ++ bytes done ++ x.left.take b) = _
        rw [← List.append_assoc, ← List.append_assoc, List.append_assoc (bytes gone), List.take_append_drop,
          List.append_assoc (bytes gone)]
      · rw [hrel, values_append]
        rfl

/-- A round of the loop. -/
theorem WriteInv.step (h : WriteInv null mem whole st log gone v tail a) {out : Writev}
    (hok : st.Ok out) {st' : WriteIovs} {evs : List IovEvent} (hstep : st.step null mem out = .ok (st', evs)) :
    (∃ gone' v' tail' a', WriteInv null mem whole st' (log ++ evs) gone' v' tail' a') ∨
      ∃ r, WriteDone whole st' (log ++ evs) r := by
  cases out with
  | wrote n =>
    rcases h.wrote hok hstep with hinv | hdone
    · exact Or.inl hinv
    · exact Or.inr ⟨0, hdone⟩
  | again =>
    unfold WriteIovs.step at hstep
    rw [h.ret] at hstep
    cases hstep
    rw [List.append_nil]
    exact Or.inl ⟨gone, v, tail, a, h⟩
  | fail =>
    unfold WriteIovs.step at hstep
    rw [h.ret] at hstep
    have hstep' : (({ st with ret := some 2 }, .failed :: (st.finish null 2).2) : WriteIovs × List IovEvent)
        = (st', evs) := Except.ok.inj hstep
    rw [WriteIovs.finish_releases null mem h.ciov] at hstep'
    cases hstep'
    have hacc : acceptedBytes (log ++ .failed :: releasesOf (st.view null mem)) = acceptedBytes log := by
      rw [acceptedBytes_append]
      show _ ++ acceptedBytes (releasesOf _) = _
      rw [acceptedBytes_releasesOf, List.append_nil]
    refine Or.inr ⟨2, rfl, Or.inr rfl, ?_, ?_, ?_, h.timed_fail _⟩
    · rw [hacc, ← h.bytes_eq]
      exact List.prefix_append _ _
    · intro h0
      cases h0
    · rw [releasedPtrs_append, h.released, ← h.values_eq]
      show _ ++ releasedPtrs (releasesOf _) = _
      rw [releasedPtrs_releasesOf]

end

/-- The state in which the function starts. -/
theorem writeInv_start (null : ℕ) (mem : ℕ → UInt8) (v : Iovec) (rest : List Iovec) :
    WriteInv null mem (entries null mem (v :: rest)) (WriteIovs.start (v :: rest)) [] []
      (v.toIov null mem v.base) (entries null mem rest) 0 := by
  have hremaining : (WriteIovs.start (v :: rest)).remaining = v :: rest := by
    show (List.range' 0 ((v :: rest).length - 0)).map (fun i => (v :: rest).getD i ⟨0, 0⟩) = _
    apply List.ext_getElem?
    intro i
    rw [List.getElem?_map]
    by_cases hi : i < (v :: rest).length
    · rw [List.getElem?_range' (by omega), List.getElem?_eq_getElem hi]
      show some ((v :: rest).getD (0 + 1 * i) ⟨0, 0⟩) = _
      rw [Nat.zero_add, Nat.one_mul, List.getD_eq_getElem?_getD, List.getElem?_eq_getElem hi]
      rfl
    · rw [List.getElem?_eq_none (by simpa using hi), List.getElem?_eq_none (by omega)]
      rfl
  refine ⟨rfl, Nat.zero_lt_succ _, rfl, ?_, Nat.zero_le _, rfl, rfl, ?_⟩
  · unfold WriteIovs.view
    rw [hremaining]
    rfl
  · intro pre post ptr hlog
    cases pre <;> cases hlog

theorem WriteIovs.Reach.inv {null : ℕ} {mem : ℕ → UInt8} {iovs : List Iovec} (hne : iovs ≠ [])
    {st : WriteIovs} {log : List IovEvent} (h : WriteIovs.Reach null mem iovs st log) :
    (∃ gone v tail a, WriteInv null mem (entries null mem iovs) st log gone v tail a) ∨
      ∃ r, WriteDone (entries null mem iovs) st log r := by
  induction h with
  | start =>
    cases iovs with
    | nil => exact absurd rfl hne
    | cons v rest => exact Or.inl ⟨[], _, _, 0, writeInv_start null mem v rest⟩
  | step _ hok hstep ih =>
    rcases ih with ⟨gone, v, tail, a, hinv⟩ | ⟨r, hdone⟩
    · exact hinv.step hok hstep
    · unfold WriteIovs.step at hstep
      rw [hdone.ret] at hstep
      cases hstep

/-! ### What a call of `write_iovs` does -/

theorem values_entries (null : ℕ) (mem : ℕ → UInt8) (iovs : List Iovec) :
    values (entries null mem iovs) = (iovs.map Iovec.base).filter (· ≠ null) := by
  induction iovs with
  | nil => rfl
  | cons v rest ih =>
    show values (v.toIov null mem v.base :: entries null mem rest) = _
    rw [values_cons, ih, List.map_cons, List.filter_cons]
    unfold Iovec.toIov
    by_cases h : v.base = null
    · simp [h]
    · simp [h]

theorem bytes_entries (null : ℕ) (mem : ℕ → UInt8) (iovs : List Iovec) :
    bytes (entries null mem iovs) = iovs.flatMap (Iovec.content mem) := by
  unfold bytes entries
  rw [List.flatMap_map]
  rfl

theorem content_length (mem : ℕ → UInt8) (iovs : List Iovec) :
    (iovs.flatMap (Iovec.content mem)).length = (iovs.map Iovec.len).sum := by
  rw [List.length_flatMap]
  congr 1
  apply List.map_congr_left
  intro v _
  show ((List.range v.len).map _).length = v.len
  rw [List.length_map, List.length_range]

/-- **`write_iovs` releases every value once, after its last byte (proved).**  For every list of
entries and every sequence of outcomes of `writev`: the bytes accepted are the first part of the
contents; before a failure, a value is released when all bytes up to its last one have been accepted,
behind the values before it; and when the function returns, the addresses released are the bases of
the list other than `NULL_VALUE`, one release for each, and with the result 0 everything is
accepted. -/
theorem write_iovs_spec {null : ℕ} {mem : ℕ → UInt8} {iovs : List Iovec} (hne : iovs ≠ [])
    {st : WriteIovs} {log : List IovEvent} (h : WriteIovs.Reach null mem iovs st log) :
    acceptedBytes log <+: iovs.flatMap (Iovec.content mem) ∧
    (∀ pre post ptr, log = pre ++ .released ptr :: post → .failed ∈ pre ∨
      ∃ k v, iovs[k]? = some v ∧ v.base = ptr ∧ v.base ≠ null ∧
        releasedPtrs pre = ((iovs.take k).map Iovec.base).filter (· ≠ null) ∧
        ((iovs.take (k + 1)).map Iovec.len).sum ≤ (acceptedBytes pre).length) ∧
    ∀ r, st.ret = some r →
      (r = 0 ∨ r = 2) ∧ releasedPtrs log = (iovs.map Iovec.base).filter (· ≠ null) ∧
      (r = 0 → acceptedBytes log = iovs.flatMap (Iovec.content mem)) := by
  have hinv := h.inv hne
  have htimed : Timed (entries null mem iovs) log := by
    rcases hinv with ⟨gone, v, tail, a, hinv⟩ | ⟨r, hdone⟩
    · exact hinv.timed
    · exact hdone.timed
  refine ⟨?_, ?_, ?_⟩
  · rw [← bytes_entries null]
    rcases hinv with ⟨gone, v, tail, a, hinv⟩ | ⟨r, hdone⟩
    · rw [← hinv.bytes_eq]
      exact List.prefix_append _ _
    · exact hdone.accepted
  · intro pre post ptr hlog
    rcases htimed pre post ptr hlog with hfailed | ⟨k, y, hy, hptr, hrel, hlen⟩
    · exact Or.inl hfailed
    · obtain ⟨v, hv, rfl⟩ : ∃ v, iovs[k]? = some v ∧ v.toIov null mem v.base = y := by
        unfold entries at hy
        rwa [List.getElem?_map, Option.map_eq_some_iff] at hy
      have hbase : v.base ≠ null ∧ v.base = ptr := by
        unfold Iovec.toIov at hptr
        by_cases h0 : v.base = null
        · simp [h0] at hptr
        · exact ⟨h0, by simpa [h0] using hptr⟩
      have htake : ∀ m, (entries null mem iovs).take m = entries null mem (iovs.take m) := by
        intro m
        unfold entries
        rw [List.map_take]
      rw [htake, values_entries] at hrel
      rw [htake, bytes_entries, content_length] at hlen
      exact Or.inr ⟨k, v, hv, hbase.2, hbase.1, hrel, hlen⟩
  · intro r hr
    rcases hinv with ⟨gone, v, tail, a, hinv⟩ | ⟨r', hdone⟩
    · rw [hinv.ret] at hr
      cases hr
    · have hrr : r' = r := Option.some.inj (hdone.ret.symm.trans hr)
      subst hrr
      refine ⟨hdone.code, ?_, ?_⟩
      · rw [hdone.released, values_entries]
      · intro h0
        rw [hdone.complete h0, bytes_entries]

/-- Three entries, the second one `NULL_VALUE`: a `writev` that ends inside it, one that accepts
nothing, one that ends with it, and the rest. -/
theorem write_iovs_three : ∃ st log,
    WriteIovs.Reach 7 (fun i => UInt8.ofNat i) [⟨64, 5⟩, ⟨7, 4⟩, ⟨128, 6⟩] st log ∧ st.ret = some 0 ∧
      releasedPtrs log = ([⟨64, 5⟩, ⟨7, 4⟩, ⟨128, 6⟩].map Iovec.base).filter (· ≠ 7) := by
  have hval : (Runs.run (WriteIovs.step 7 fun i => UInt8.ofNat i) (fun st _ out => st.Ok out)
      [Writev.wrote 7, .again, .wrote 2, .wrote 6] (WriteIovs.start [⟨64, 5⟩, ⟨7, 4⟩, ⟨128, 6⟩]) []).map
        (fun r => r.1.ret) = some (some 0) := by
    decide +kernel
  obtain ⟨⟨st, log⟩, hrun, hret⟩ := Option.map_eq_some_iff.mp hval
  have hreach : WriteIovs.Reach 7 (fun i => UInt8.ofNat i) [⟨64, 5⟩, ⟨7, 4⟩, ⟨128, 6⟩] st log :=
    Runs.Reach.start.run hrun
  exact ⟨st, log, hreach, hret, ((write_iovs_spec (by decide) hreach).2.2 0 hret).2.1⟩

end HashServer

end SmpHashTable
