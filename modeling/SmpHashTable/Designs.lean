import SmpHashTable.LockingConversation
import SmpHashTable.Lib.LastInsert

/-!
# The designs agree

A program that makes the same batches of requests through message passing and on the locking table gets the same
answers: in both it finds something at the same requests, what it finds was inserted by the last insert of the key
before, and in the end the partitions hold the same keys in the same order of use.
-/

namespace SmpHashTable

open FillingCache (Ask Tally Agrees Named Synced valueOf)

/-- The values are what the caches of numbers answer to the batches. -/
structure Answers (limit n : ℕ) (bs : List (List Msg)) (vals : List ℕ) : Prop where
  length : vals.length = bs.flatten.length
  agrees : ∀ s < n, Agrees (expected limit n s bs).answers (valuesAt n s bs vals)

section

variable {limit n : ℕ} {bs : List (List Msg)} {vals vals' : List ℕ}

/-- Whether a request finds something depends on the batches only. -/
theorem Answers.found (h : Answers limit n bs vals) (hn : 0 < n) {i v : ℕ} {m : Msg}
    (hm : bs.flatten[i]? = some m) (hv : vals[i]? = some v) :
    ((expected limit n (hashGetServer n m.key) bs).answers[(bs.flatten.take i).countP
      fun q => hashGetServer n q.key = hashGetServer n m.key]?).map Option.isSome = some (hitOf v).isSome := by
  set s := hashGetServer n m.key with hs
  have hpair : (bs.flatten.zip vals)[i]? = some (m, v) := by
    rw [List.getElem?_zip_eq_some]
    exact ⟨hm, hv⟩
  have hcount : ((bs.flatten.zip vals).take i).countP (fun a => decide (hashGetServer n a.1.key = s))
      = (bs.flatten.take i).countP fun q => hashGetServer n q.key = s := by
    have hfst : (bs.flatten.zip vals).map Prod.fst = bs.flatten := List.map_fst_zip h.length.ge
    conv_rhs => rw [← hfst, ← List.map_take, List.countP_map]
    rfl
  have hval : (valuesAt n s bs vals)[(bs.flatten.take i).countP fun q => hashGetServer n q.key = s]?
      = some (hitOf v) := by
    have hfilter := Lists.getElem?_filter_countP (p := fun a : Msg × ℕ => decide (hashGetServer n a.1.key = s))
      hpair (by simpa using hs.symm)
    rw [valuesAt, List.getElem?_map, ← hcount, hfilter]
    rfl
  rcases h.agrees s (hashGetServer_lt hn m.key) _ _ hval with ⟨hans, hnone⟩ | ⟨j, -, hans, hsome, -⟩
  · rw [hans, hnone]
    rfl
  · rw [hans, hsome]
    rfl

/-- **The same requests find something.** -/
theorem Answers.found_same (h : Answers limit n bs vals) (h' : Answers limit n bs vals') (hn : 0 < n) :
    vals.map (fun v => (hitOf v).isSome) = vals'.map fun v => (hitOf v).isSome := by
  refine List.ext_getElem (by rw [List.length_map, List.length_map, h.length, h'.length]) fun i hi hi' => ?_
  rw [List.length_map] at hi hi'
  have hlt : i < bs.flatten.length := h.length ▸ hi
  have hone := h.found hn (List.getElem?_eq_getElem hlt) (List.getElem?_eq_getElem hi)
  have hother := h'.found hn (List.getElem?_eq_getElem hlt) (List.getElem?_eq_getElem hi')
  rw [hone, Option.some.injEq] at hother
  rw [List.getElem_map, List.getElem_map, hother]

theorem Msg.isSome_ask {m : Msg} : m.ask.isSome = m.isRequest := by
  cases m <;> rfl

theorem asksTo_flatten (n s : ℕ) (bs : List (List Msg)) :
    (bs.map (asksTo n s)).flatten = asksTo n s bs.flatten := by
  induction bs with
  | nil => rfl
  | cons b bs ih =>
      rw [List.map_cons, List.flatten_cons, List.flatten_cons, ih, asksTo, asksTo, asksTo, List.filter_append,
        List.filterMap_append]

/-- **What a lookup finds is the value of the last insert of its key before it.** -/
theorem Answers.latest (h : Answers limit n bs vals) (hn : 0 < n) (hreq : ∀ m ∈ bs.flatten, m.isRequest = true)
    {before after : List (Msg × ℕ)} {key v e : ℕ} (hsplit : bs.flatten.zip vals = before ++ (.lookup key, v) :: after)
    (hv : hitOf v = some e) : ∃ l size w l', before = l ++ (.insert key size, w) :: l' ∧ hitOf w = some e ∧
      ∀ a ∈ l', ∀ size, a.1 ≠ .insert key size := by
  set s := hashGetServer n key with hs
  set p : Msg × ℕ → Bool := fun a => decide (hashGetServer n a.1.key = s) with hp
  have hfst : (bs.flatten.zip vals).map Prod.fst = bs.flatten := List.map_fst_zip h.length.ge
  have hfilter : (bs.flatten.zip vals).filter p = before.filter p ++ (.lookup key, v) :: after.filter p := by
    rw [hsplit, List.filter_append, List.filter_cons_of_pos (by simp [hp, hs, Msg.key])]
  have hasks : (bs.map (asksTo n s)).flatten = (before.filter p).filterMap (fun a => a.1.ask)
      ++ .lookup key :: (after.filter p).filterMap fun a => a.1.ask := by
    calc (bs.map (asksTo n s)).flatten = (bs.flatten.filter fun m => hashGetServer n m.key = s).filterMap Msg.ask :=
          asksTo_flatten n s bs
      _ = ((bs.flatten.zip vals).filter p).filterMap fun a => a.1.ask := by
          conv_lhs => rw [← hfst, List.filter_map, List.filterMap_map]
          rfl
      _ = _ := by
          rw [hfilter, List.filterMap_append, List.filterMap_cons_some (by rfl)]
  have hvals : valuesAt n s bs vals = (before.filter p).map (fun a => hitOf a.2)
      ++ some e :: (after.filter p).map fun a => hitOf a.2 := by
    rw [valuesAt, hfilter, List.map_append, List.map_cons, hv]
  have hrequests : ∀ a ∈ before, (a.1.ask).isSome = true := by
    intro a ha
    rw [Msg.isSome_ask]
    refine hreq a.1 ?_
    rw [← hfst, hsplit]
    exact List.mem_map_of_mem (List.mem_append_left _ ha)
  have hlen : ((before.filter p).filterMap fun a => a.1.ask).length = (before.filter p).length :=
    List.filterMap_length_eq_length.mpr fun a ha => hrequests a (List.mem_of_mem_filter ha)
  -- the answer is the number of an insert, whose value it is
  have hlast : (valuesAt n s bs vals)[(before.filter p).length]? = some (some e) := by
    rw [hvals, List.getElem?_append_right (by simp)]
    simp
  obtain ⟨j, hj, hans, hval⟩ : ∃ j ≤ (before.filter p).length,
      (expected limit n s bs).answers[(before.filter p).length]? = some (some j) ∧
        (valuesAt n s bs vals)[j]? = some (some e) := by
    rcases h.agrees s (hashGetServer_lt hn key) _ _ hlast with ⟨-, hnone⟩ | ⟨j, hj, hans, -, hval⟩
    · cases hnone
    · exact ⟨j, hj, hans, hval⟩
  have hfresh : Tally.Fresh (bs.map (asksTo n s)).flatten (expected limit n s bs) := by
    have hall : Tally.Fresh ([] ++ (bs.map (asksTo n s)).flatten) (expected limit n s bs) :=
      Tally.fresh_start.rounds _
    rwa [List.nil_append] at hall
  obtain ⟨l, size, l', hbefore, rfl, hother⟩ := hfresh.found _ key _ j hasks (by rw [hlen]; exact hans)
  obtain ⟨g, g₀, hg, rfl, hg₀⟩ := List.filterMap_eq_append_iff.mp hbefore
  obtain ⟨g₁, a, g', rfl, hnone, hask, rfl⟩ := List.filterMap_eq_cons_iff.mp hg₀
  have hmem : ∀ b ∈ g ++ (g₁ ++ a :: g'), b ∈ before := fun b hb => List.mem_of_mem_filter (hg ▸ hb)
  have hnil : g₁ = [] := by
    refine List.eq_nil_iff_forall_not_mem.mpr fun b hb => ?_
    have hsome := hrequests b (hmem b (List.mem_append_right _ (List.mem_append_left _ hb)))
    rw [hnone b hb] at hsome
    cases hsome
  subst hnil
  rw [List.nil_append] at hg hmem
  obtain ⟨f, f₀, rfl, hf, hf₀⟩ := List.filter_eq_append_iff.mp hg
  obtain ⟨f₁, f', rfl, -, -, hf'⟩ := List.filter_eq_cons_iff.mp hf₀
  obtain ⟨size', hinsert⟩ : ∃ size', a.1 = .insert key size' := by
    obtain ⟨m, w⟩ := a
    cases m with
    | insert k size' =>
        cases hask
        exact ⟨size', rfl⟩
    | lookup k => cases hask
    | release k => cases hask
    | markReady k => cases hask
  have hglen : (g.filterMap fun a => a.1.ask).length = g.length :=
    List.filterMap_length_eq_length.mpr fun b hb => hrequests b (hmem b (List.mem_append_left _ hb))
  rw [hvals, hg, hglen, List.map_append, List.map_cons, List.append_assoc, List.getElem?_append_right (by simp)] at hval
  refine ⟨f ++ f₁, size', a.2, f', ?_, by simpa using hval, fun b hb size'' heq => ?_⟩
  · rw [← hinsert, List.append_assoc]
  · have hin : b ∈ g' := by
      rw [← hf']
      exact List.mem_filter.mpr ⟨hb, by simp [hp, hs, heq, Msg.key]⟩
    have hask' : b.1.ask = some (.insert key (elemSize (intOfWord (wordOfInt size'')))) := by rw [heq]; rfl
    exact hother _ (List.mem_filterMap.mpr ⟨b, hin, hask'⟩) _ rfl

end

/-- Only requests are accepted. -/
theorem isRequest_of_accepted {c : ℕ} {log : List Event} {r : Req} (h : r ∈ accepted c log) :
    r.2.isRequest = true := by
  obtain ⟨ev, -, hev⟩ := List.mem_filterMap.mp h
  cases ev with
  | issue c' s m =>
      simp only at hev
      split at hev
      · next hm =>
        cases hev
        exact hm.2
      · cases hev
  | _ => cases hev

/-- **Message passing and locking agree.**  A client of a table with message passing and a thread of a locking table of
the same size that have finished the same batches have found something at the same requests.  In both, what a lookup
found is the value of the last insert of its key before it.  And in the end the partitions of the tables hold the same
keys with the same sizes in the same order of use. -/
theorem designs_agree {maxSize nservers : ℕ} (hn : 0 < nservers) (hmax : maxSize / nservers < 2 ^ 63)
    {bs : List (List Msg)} {st : Sys} {log : List Event}
    (h : Sys.Disciplined (createHashTable maxSize nservers .lru) st log)
    (hcalls : ∀ e ∈ log, e.Sized ∧ e.Allocated) (hlen : log.length + 2 < 2 ^ 63) {c : ℕ} {x : Talk}
    (hx : Runs.replay (Talk.apply c) (Talk.start bs) log = some x) (hset : x.Settled) (hxlater : x.later = [])
    {st' : Locking} {log' : List LockingEvent} {pts : List LockingPoint}
    (h' : Locking.Served maxSize nservers st' log' pts) (hlen' : log'.length + 1 < 2 ^ 63) {t : ℕ} {y : Batching}
    (hy : Runs.replay (Batching.apply t) (Batching.start bs) pts = some y) (hrest : y.rest = [])
    (hylater : y.later = []) (hidle : st'.pc t = .idle) :
    (obtained c log).map (fun v => (hitOf v).isSome) = (returnedBy t log').map (fun v => (hitOf v).isSome) ∧
      (∀ vals, vals = obtained c log ∨ vals = returnedBy t log' → ∀ before key v after e,
        bs.flatten.zip vals = before ++ (.lookup key, v) :: after → hitOf v = some e →
          ∃ l size w l', before = l ++ (.insert key size, w) :: l' ∧ hitOf w = some e ∧
            ∀ a ∈ l', ∀ size, a.1 ≠ .insert key size) ∧
      ∀ s < nservers, st'.lock s = none →
        ((st.table.part s).lru.map (view st.table.mem)).map (fun e => (e.key, e.size))
          = ((st'.table.part s).lru.map (view st'.table.mem)).map fun e => (e.key, e.size) := by
  have hanswers : Answers (maxSize / nservers) nservers bs (obtained c log) :=
    ⟨disciplined_obtained hmax h hcalls hlen hx hset hxlater,
      fun s hs => disciplined_agrees hmax h hcalls hlen hx hs⟩
  have hanswers' : Answers (maxSize / nservers) nservers bs (returnedBy t log') :=
    ⟨locking_returned hn hmax h' hy hrest hylater hidle, fun s hs => locking_agrees hn hmax h' hlen' hy hs⟩
  have hfollows := Talk.follows hx
  have hreq : ∀ m ∈ bs.flatten, m.isRequest = true := by
    intro m hm
    rw [hfollows.finished hset hxlater] at hm
    obtain ⟨r, hr, rfl⟩ := List.mem_map.mp hm
    exact isRequest_of_accepted hr
  refine ⟨hanswers.found_same hanswers' hn, ?_, fun s hs hlock => ?_⟩
  · rintro vals (rfl | rfl) before key v after e hsplit hv
    · exact hanswers.latest hn hreq hsplit hv
    · exact hanswers'.latest hn hreq hsplit hv
  · exact (disciplined_entries hmax h hcalls hlen hx hset hxlater hs).trans
      (locking_entries hn hmax h' hlen' hy hrest hylater hs hlock).symm

theorem designs_agree_twice : ∃ st log st' log' pts, Sys.Disciplined (createHashTable 128 1 .lru) st log ∧
    Locking.Served 128 1 st' log' pts ∧
    (obtained 0 log).map (fun v => (hitOf v).isSome) = (returnedBy 0 log').map (fun v => (hitOf v).isSome) ∧
    ((st.table.part 0).lru.map (view st.table.mem)).map (fun e => (e.key, e.size))
      = ((st'.table.part 0).lru.map (view st'.table.mem)).map fun e => (e.key, e.size) := by
  have hval : (Runs.run Sys.step
      (fun st log a => a.Ok st ∧ a.Returns (createHashTable 128 1 .lru) log) batchesRun
      (Sys.init (createHashTable 128 1 .lru)) []).map
        (fun r => decide (r.2.length = 20 ∧ (∀ e ∈ r.2, e.Sized ∧ e.Allocated) ∧
          Runs.replay (Talk.apply 0) (Talk.start batchesMade) r.2 = some batchesEnd))
      = some true := by
    decide +kernel
  obtain ⟨⟨st, log⟩, hrun, heq⟩ := Option.map_eq_some_iff.mp hval
  have hreach : Sys.Disciplined (createHashTable 128 1 .lru) st log := Runs.Reach.start.run hrun
  obtain ⟨hlen, hcalls, hx⟩ := of_decide_eq_true heq
  have hval' : (Runs.runNoted Locking.step (fun _ log a => a.Ok log ∧ a.Served) Locking.points lockedBatchesRun
      (.init (createHashTable 128 1 .lru)) [] []).map
        (fun r => decide (r.2.1.length = 8 ∧ r.1.lock 0 = none ∧ r.1.pc 0 = .idle ∧
          Runs.replay (Batching.apply 0) (Batching.start batchesMade) r.2.2 = some lockedBatchesEnd))
      = some true := by
    decide +kernel
  obtain ⟨⟨st', log', pts⟩, hrun', heq'⟩ := Option.map_eq_some_iff.mp hval'
  have hserved : Locking.Served 128 1 st' log' pts := Runs.Noted.start.run hrun'
  obtain ⟨hlen', hfree, hidle, hy⟩ := of_decide_eq_true heq'
  simp only at hlen hlen' hfree hidle hx hy
  obtain ⟨hfound, -, hentries⟩ := designs_agree Nat.one_pos (by decide) hreach hcalls (by rw [hlen]; decide) hx
    ⟨rfl, rfl⟩ rfl hserved (by rw [hlen']; decide) hy rfl rfl hidle
  exact ⟨st, log, st', log', pts, hreach, hserved, hfound, hentries 0 Nat.one_pos hfree⟩

end SmpHashTable
