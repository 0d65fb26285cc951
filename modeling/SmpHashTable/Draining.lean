import SmpHashTable.Decoding
import Mathlib.Algebra.BigOperators.Group.Finset.Basic
import Mathlib.Algebra.Order.BigOperators.Group.Finset
import Mathlib.Order.Lattice.Nat

/-!
# The request streams are read to the end

As long as the batch is not empty or some connection has something to read or to close, a step of the
thread leaves less to do: it reads, it gets nearer to the slot where the round ends, or it gets nearer to
a slot with something to read.
-/

namespace SmpHashTable

namespace HashServer

namespace Reader

/-- Slot `sid` has something to read, or its connection is to be closed. -/
def Live (st : Reader) (sid : ℕ) : Prop :=
  st.cl.cd.sockets sid ≠ -1 ∧ ((st.feed sid).pieces ≠ [] ∨ (st.feed sid).closed = true)

/-- Nothing is left to do. -/
def Finished (st : Reader) : Prop := st.cl.batch = [] ∧ ∀ sid < MAX_SOCKETS, ¬ st.Live sid

/-! ### What is left to do -/

/-- What is left of slot `sid`. -/
def slotWeight (st : Reader) (sid : ℕ) : ℕ :=
  (st.feed sid).weight + if st.cl.cd.sockets sid ≠ -1 ∧ (st.feed sid).closed = true then 1 else 0

def weight (st : Reader) : ℕ := ∑ sid ∈ Finset.range MAX_SOCKETS, st.slotWeight sid

/-- How far it is from slot `p` to a slot with something to do. -/
noncomputable def gap (st : Reader) (p : ℕ) : ℕ := sInf {d | st.Live ((p + d) % MAX_SOCKETS)}

/-- The thread is about to leave its slot. -/
def Moving (cl : Client) : Prop := cl.pc = .tail ∧ (cl.cd.sockets cl.i = -1 ∨ cl.r = 1)

/-- How many slots there are to go, from slot `p`, until the round ends. -/
def roundFrom (last p : ℕ) : ℕ := (last + (MAX_SOCKETS - 1) - p) % MAX_SOCKETS + 1

open Classical in
/-- How far the thread is from its next read, or from the end of the round. -/
noncomputable def dist (st : Reader) : ℕ :=
  if st.cl.pc = .query then 0
  else if st.cl.batch ≠ [] then roundFrom st.cl.lastSocket st.cl.i - if Moving st.cl then 1 else 0
  else if st.cl.pc = .top then st.gap st.cl.lastSocket
  else if Moving st.cl then st.gap ((st.cl.i + 1) % MAX_SOCKETS)
  else st.gap st.cl.i

/-- How far the thread is in the body of the loop. -/
def rank : ClientPc → ℕ
  | .top => 11
  | .tail => 10
  | .check => 9
  | .header _ | .value _ _ => 8
  | .closing line _ => 7 - line
  | _ => 0

noncomputable def toDo (st : Reader) : ℕ :=
  8192 * st.weight + 4096 * (if st.cl.batch = [] then 0 else 1) + 16 * st.dist + rank st.cl.pc

/-! ### Distances -/

section

variable {st : Reader} {p : ℕ}

theorem exists_live (hp : p < MAX_SOCKETS) {sid : ℕ} (hsid : sid < MAX_SOCKETS) (h : st.Live sid) :
    ∃ d, d < MAX_SOCKETS ∧ st.Live ((p + d) % MAX_SOCKETS) := by
  have hmax : MAX_SOCKETS = 128 := rfl
  refine ⟨(sid + MAX_SOCKETS - p) % MAX_SOCKETS, Nat.mod_lt _ (by decide), ?_⟩
  have heq : (p + (sid + MAX_SOCKETS - p) % MAX_SOCKETS) % MAX_SOCKETS = sid := by
    rw [hmax] at hp hsid ⊢
    omega
  rw [heq]
  exact h

theorem gap_lt (hp : p < MAX_SOCKETS) {sid : ℕ} (hsid : sid < MAX_SOCKETS) (h : st.Live sid) :
    st.gap p < MAX_SOCKETS := by
  obtain ⟨d, hd, hlive⟩ := exists_live hp hsid h
  exact (Nat.sInf_le hlive).trans_lt hd

theorem gap_le (st : Reader) (p : ℕ) : st.gap p ≤ MAX_SOCKETS := by
  by_cases h : ∃ d, st.Live ((p + d) % MAX_SOCKETS)
  · obtain ⟨d, hd⟩ := h
    have hmod : st.Live ((p + d % MAX_SOCKETS) % MAX_SOCKETS) := by
      rw [Nat.add_mod_mod]
      exact hd
    exact (Nat.sInf_le hmod).trans (Nat.mod_lt _ (by decide)).le
  · have hempty : {d | st.Live ((p + d) % MAX_SOCKETS)} = ∅ :=
      Set.eq_empty_of_forall_notMem fun d hd => h ⟨d, hd⟩
    rw [gap, hempty, Nat.sInf_empty]
    exact Nat.zero_le _

/-- A slot without anything to do is passed. -/
theorem gap_next (hp : p < MAX_SOCKETS) (hdead : ¬ st.Live p) {sid : ℕ} (hsid : sid < MAX_SOCKETS)
    (h : st.Live sid) : st.gap ((p + 1) % MAX_SOCKETS) < st.gap p := by
  obtain ⟨d, -, hlive⟩ := exists_live hp hsid h
  have hmem : st.Live ((p + st.gap p) % MAX_SOCKETS) :=
    Nat.sInf_mem (s := {d | st.Live ((p + d) % MAX_SOCKETS)}) ⟨d, hlive⟩
  have hpos : st.gap p ≠ 0 := by
    intro hzero
    rw [hzero, Nat.add_zero, Nat.mod_eq_of_lt hp] at hmem
    exact hdead hmem
  have hle : st.gap ((p + 1) % MAX_SOCKETS) ≤ st.gap p - 1 := by
    apply Nat.sInf_le
    show st.Live (((p + 1) % MAX_SOCKETS + (st.gap p - 1)) % MAX_SOCKETS)
    rw [Nat.mod_add_mod, show p + 1 + (st.gap p - 1) = p + st.gap p by omega]
    exact hmem
  omega

theorem roundFrom_pos (last p : ℕ) : 0 < roundFrom last p := Nat.succ_pos _

theorem roundFrom_le (last p : ℕ) : roundFrom last p ≤ MAX_SOCKETS :=
  Nat.succ_le_of_lt (Nat.mod_lt _ (by decide))

theorem roundFrom_next {last : ℕ} (hlast : last < MAX_SOCKETS) (hp : p < MAX_SOCKETS)
    (hne : (p + 1) % MAX_SOCKETS ≠ last) :
    roundFrom last ((p + 1) % MAX_SOCKETS) = roundFrom last p - 1 := by
  unfold roundFrom
  rw [show MAX_SOCKETS = 128 from rfl] at *
  omega

theorem dist_le (st : Reader) : st.dist ≤ MAX_SOCKETS := by
  have hround := roundFrom_le st.cl.lastSocket st.cl.i
  unfold dist
  split
  · exact Nat.zero_le _
  · split
    · omega
    · split
      · exact gap_le _ _
      · split <;> exact gap_le _ _

theorem rank_le (pc : ClientPc) : rank pc ≤ 11 := by
  cases pc <;> simp only [rank] <;> omega

/-- Less to read is less to do. -/
theorem toDo_lt_of_weight {st' : Reader} (h : st'.weight < st.weight) : st'.toDo < st.toDo := by
  have hdist := dist_le st'
  have hrank := rank_le st'.cl.pc
  have hmax : MAX_SOCKETS = 128 := rfl
  unfold toDo
  split <;> split <;> omega

/-- A batch that has been taken up is less to do. -/
theorem toDo_lt_of_batch {st' : Reader} (h : st'.weight = st.weight) (hnil : st'.cl.batch = [])
    (hne : st.cl.batch ≠ []) : st'.toDo < st.toDo := by
  have hdist := dist_le st'
  have hrank := rank_le st'.cl.pc
  have hmax : MAX_SOCKETS = 128 := rfl
  unfold toDo
  rw [if_pos hnil, if_neg hne, h]
  omega

end

/-! ### Every step leaves less to do -/

section

variable {b : ℕ} {target : ℕ → List (HashQuery × List UInt8)} (st : Reader) (cl : Client)

theorem toDo_lt_of_dist (hsock : cl.cd.sockets = st.cl.cd.sockets) (hbatch : cl.batch = st.cl.batch)
    (h : 16 * ({ st with cl := cl } : Reader).dist + rank cl.pc < 16 * st.dist + rank st.cl.pc) :
    ({ st with cl := cl } : Reader).toDo < st.toDo := by
  have hweight : ({ st with cl := cl } : Reader).weight = st.weight := by
    simp only [weight, slotWeight, hsock]
  simp only [toDo, hweight, hbatch]
  omega

/-- A step that gets nearer to the next read, or to the end of the round. -/
theorem toDo_pass (hsock : cl.cd.sockets = st.cl.cd.sockets) (hbatch : cl.batch = st.cl.batch)
    (h : ({ st with cl := cl } : Reader).dist + 1 ≤ st.dist) :
    ({ st with cl := cl } : Reader).toDo < st.toDo := by
  have hrank := rank_le cl.pc
  exact toDo_lt_of_dist st cl hsock hbatch (by omega)

/-- A step further in the body of the loop. -/
theorem toDo_stay (hsock : cl.cd.sockets = st.cl.cd.sockets) (hbatch : cl.batch = st.cl.batch)
    (h : ({ st with cl := cl } : Reader).dist = st.dist) (hrank : rank cl.pc < rank st.cl.pc) :
    ({ st with cl := cl } : Reader).toDo < st.toDo :=
  toDo_lt_of_dist st cl hsock hbatch (by omega)

theorem gap_congr (hsock : cl.cd.sockets = st.cl.cd.sockets) (p : ℕ) :
    ({ st with cl := cl } : Reader).gap p = st.gap p := by
  simp only [gap, Live, hsock]

/-- Within the body of the loop the distance stays. -/
theorem dist_eq (hsock : cl.cd.sockets = st.cl.cd.sockets) (hbatch : cl.batch = st.cl.batch)
    (hi : cl.i = st.cl.i) (hlast : cl.lastSocket = st.cl.lastSocket) (hmove : ¬ Moving cl)
    (hmove' : ¬ Moving st.cl) (hpc : cl.pc ≠ .query) (hpc' : st.cl.pc ≠ .query) (htop : cl.pc ≠ .top)
    (htop' : st.cl.pc ≠ .top) : ({ st with cl := cl } : Reader).dist = st.dist := by
  simp only [dist, gap_congr st cl hsock, hbatch, hi, hlast, if_neg hmove, if_neg hmove', if_neg hpc,
    if_neg hpc', if_neg htop, if_neg htop']

/-- The thread passes a slot without anything to do. -/
theorem dist_pass (h : Sound target st) (hnot : ¬ st.Finished)
    (hsock : cl.cd.sockets = st.cl.cd.sockets) (hbatch : cl.batch = st.cl.batch) (hi : cl.i = st.cl.i)
    (hlast : cl.lastSocket = st.cl.lastSocket) (hmove : Moving cl) (hmove' : ¬ Moving st.cl)
    (hpc' : st.cl.pc ≠ .query) (htop' : st.cl.pc ≠ .top) (hdead : ¬ st.Live st.cl.i) :
    ({ st with cl := cl } : Reader).dist + 1 ≤ st.dist := by
  have hpc : cl.pc ≠ .query := by
    rw [hmove.1]
    exact ClientPc.noConfusion
  have htop : cl.pc ≠ .top := by
    rw [hmove.1]
    exact ClientPc.noConfusion
  simp only [dist, gap_congr st cl hsock, hbatch, hi, hlast, if_pos hmove, if_neg hmove', if_neg hpc,
    if_neg hpc', if_neg htop, if_neg htop']
  by_cases hnil : st.cl.batch = []
  · have hlive : ∃ sid < MAX_SOCKETS, st.Live sid := by
      by_contra hnone
      exact hnot ⟨hnil, fun sid hsid hl => hnone ⟨sid, hsid, hl⟩⟩
    obtain ⟨sid, hsid, hl⟩ := hlive
    have hgap := gap_next h.i_lt hdead hsid hl
    rw [if_neg (not_not.mpr hnil), if_neg (not_not.mpr hnil)]
    omega
  · have hpos := roundFrom_pos st.cl.lastSocket st.cl.i
    rw [if_pos hnil, if_pos hnil]
    omega

theorem toDo_go {fds : ℤ → Option ℕ} {evs : List ServerEvent} (hb : 0 < b) (h : Sound target st)
    (hnot : ¬ st.Finished) (hstep : ClientStep b st.cl (fun _ => none) 0 .go cl fds evs) :
    ({ st with cl := cl } : Reader).toDo < st.toDo := by
  have hgath := h.pc
  have hstill : ∀ {cl : Client}, cl.pc ≠ .tail → ¬ Moving cl := fun hne hmove => hne hmove.1
  cases hstep with
  | newBatch hpc =>
      have hnil := h.top hpc
      refine toDo_lt_of_dist st _ rfl hnil.symm ?_
      simp [dist, Moving, hpc, hnil, rank, gap_congr]
  | batchFull hpc hfull =>
      have hne : st.cl.batch ≠ [] := (h.step_go hb (.batchFull hpc hfull)).query rfl
      have hpos := roundFrom_pos st.cl.lastSocket st.cl.i
      refine toDo_lt_of_dist st _ rfl rfl ?_
      simp [dist, Moving, hpc, hne, rank]
  | openSlot hpc _ _ _ =>
      have hdist := dist_eq st { st.cl with pc := .header [] } rfl rfl rfl rfl (hstill (by simp))
        (hstill (by simp [hpc])) (by simp) (by simp [hpc]) (by simp) (by simp [hpc])
      exact toDo_stay st _ rfl rfl hdist (by rw [hpc]; simp [rank])
  | emptySlot hpc _ _ hempty =>
      have hpass := dist_pass st { st.cl with pc := .tail } h hnot rfl rfl rfl rfl ⟨rfl, .inl hempty⟩
        (hstill (by simp [hpc])) (by simp [hpc]) (by simp [hpc]) (fun hlive => hlive.1 hempty)
      exact toDo_pass st _ rfl rfl hpass
  | nextSlot hpc hmove hround =>
      have hmoving : Moving st.cl := ⟨hpc, hmove⟩
      have hstop : ¬ Moving { st.cl with i := (st.cl.i + 1) % MAX_SOCKETS, pc := .check } :=
        hstill (by simp)
      have hdist : ({ st with cl := { st.cl with
          i := (st.cl.i + 1) % MAX_SOCKETS
          pc := .check } } : Reader).dist = st.dist := by
        by_cases hnil : st.cl.batch = []
        · simp [dist, hpc, hnil, if_pos hmoving, if_neg hstop, gap_congr]
        · have hne : (st.cl.i + 1) % MAX_SOCKETS ≠ st.cl.lastSocket := fun heq => hround ⟨hnil, heq⟩
          simp [dist, hpc, hnil, if_pos hmoving, if_neg hstop, roundFrom_next h.last_lt h.i_lt hne]
      exact toDo_stay st _ rfl rfl hdist (by rw [hpc]; simp [rank])
  | roundDone hpc _ _ _ =>
      refine toDo_lt_of_dist st _ rfl rfl ?_
      rw [hpc]
      simp [dist, rank]
  | sameSlot hpc hsock hr =>
      have hdist := dist_eq st { st.cl with pc := .check } rfl rfl rfl rfl (hstill (by simp))
        (fun hmove => hmove.2.elim hsock hr) (by simp) (by simp [hpc]) (by simp) (by simp [hpc])
      exact toDo_stay st _ rfl rfl hdist (by rw [hpc]; simp [rank])
  | @fclose tgt hpc =>
      have hdist := dist_eq st { st.cl with pc := .closing 1 tgt } rfl rfl rfl rfl (hstill (by simp))
        (hstill (by simp [hpc])) (by simp) (by simp [hpc]) (by simp) (by simp [hpc])
      exact toDo_stay st _ rfl rfl hdist (by rw [hpc]; simp [rank])
  | @close tgt hpc =>
      have hdist := dist_eq st { st.cl with pc := .closing 2 tgt } rfl rfl rfl rfl (hstill (by simp))
        (hstill (by simp [hpc])) (by simp) (by simp [hpc]) (by simp) (by simp [hpc])
      exact toDo_stay st _ rfl rfl hdist (by rw [hpc]; simp [rank])
  | @uncount tgt hpc =>
      have hdist := dist_eq st
        { st.cl with cd.nsockets := st.cl.cd.nsockets - 1, pc := .closing 3 tgt } rfl rfl rfl rfl
        (hstill (by simp)) (hstill (by simp [hpc])) (by simp) (by simp [hpc]) (by simp) (by simp [hpc])
      exact toDo_stay st _ rfl rfl hdist (by rw [hpc]; simp [rank])
  | clearSlot hpc _ =>
      obtain ⟨hsock, -, hclosed⟩ := h.closing _ _ hpc
      apply toDo_lt_of_weight
      apply Finset.sum_lt_sum
      · intro sid _
        simp only [slotWeight]
        by_cases hs : sid = st.cl.i
        · simp [hs]
        · simp only [Function.update_of_ne hs, le_refl]
      · refine ⟨st.cl.i, Finset.mem_range.mpr h.i_lt, ?_⟩
        simp [slotWeight, hsock, hclosed]
  | kept hpc _ _ | dropped hpc _ _ | filled hpc _ | resultsDone hpc | writeSlot hpc _ _
  | skipSlot hpc _ _ | slotsDone hpc _ =>
      rw [hpc] at hgath
      exact hgath.elim

end

/-! ### Reads -/

section

variable {b : ℕ} {target : ℕ → List (HashQuery × List UInt8)} {st : Reader}

/-- No insert of size zero is complete. -/
def NoZero (target : ℕ → List (HashQuery × List UInt8)) : Prop :=
  ∀ sid, ∀ p ∈ target sid, ¬ (p.1.optype = OPTYPE_INSERT ∧ p.1.size = 4)

theorem value_lt {q : HashQuery} {n : ℕ} (h : Sound target st) (hz : NoZero target)
    (hpc : st.cl.pc = .value q n) : n < q.size := by
  obtain ⟨-, hn, -⟩ := h.value q n hpc
  rcases Nat.eq_zero_or_pos q.size with hsize | hpos
  · exfalso
    obtain ⟨rest, howes⟩ := h.owes st.cl.i
    obtain ⟨cq, rest', rfl, hcq, -, hcop, hclen, hsend⟩ := h.value_head hpc howes
    have hlen : (sendquery cq).length ≤ (st.unread st.cl.i).length := by
      rw [hsend, unread, begun_value _ hpc]
      simp only [List.length_append]
      omega
    have hmem : cq.request ∈ target st.cl.i := by
      rw [howes.target, complete, if_pos hlen]
      simp
    refine hz st.cl.i _ hmem ?_
    have hcsize : cq.size = q.size := by
      rw [hcq]
      rfl
    rw [ClientQuery.request, if_pos hcop]
    exact ⟨hcop, by show cq.size + 4 = 4; omega⟩
  · omega

/-- What has been begun is not complete. -/
theorem begun_short {sid : ℕ} {cq : ClientQuery} {rest : List ClientQuery} (h : Sound target st)
    (hz : NoZero target) (howes : Owes (target sid) st sid (cq :: rest)) :
    (begun st.cl sid).length < (sendquery cq).length := by
  have hlen := length_sendquery cq
  have hpos : 0 < QUERY_SIZE := by decide
  by_cases hs : st.cl.i = sid
  · rw [← hs] at howes ⊢
    cases hpc : st.cl.pc with
    | header got =>
        rw [begun_header _ hpc]
        have := (h.header got hpc).1
        omega
    | value q n =>
        obtain ⟨cq', rest', heq, -, -, -, hclen, hsend⟩ := h.value_head hpc howes
        cases heq
        have hlt := value_lt h hz hpc
        rw [begun_value _ hpc, hsend]
        simp only [List.length_append, length_loadBytes, hclen]
        omega
    | _ =>
        rw [begun_of_pc _ (by simp [hpc]) (by simp [hpc]), List.length_nil]
        omega
  · rw [begun, if_neg hs, List.length_nil]
    omega

/-- On a connection that has gone silent nothing has been begun. -/
theorem rest_of_silent {sid : ℕ} {rest : List ClientQuery} (h : Sound target st) (hz : NoZero target)
    (howes : Owes (target sid) st sid rest) (hpieces : (st.feed sid).pieces = [])
    (hclosed : (st.feed sid).closed = false) : rest = [] ∧ begun st.cl sid = [] := by
  have hwhole := howes.whole hclosed
  rw [unread, Feed.bytes, hpieces, List.flatten_nil, List.append_nil] at hwhole
  cases rest with
  | nil => exact ⟨rfl, hwhole⟩
  | cons cq rest =>
      have hlt := begun_short h hz howes
      rw [hwhole, sendqueries_cons, List.length_append] at hlt
      omega

theorem read_cd {c : ℕ} {cl cl' : Client} {fds fds' : ℤ → Option ℕ} {bs : List UInt8} {e : ReadEnd}
    {evs : List ServerEvent} (h : ClientStep b cl fds c (.read bs e) cl' fds' evs) : cl'.cd = cl.cd := by
  cases h <;> rfl

/-- A read that finds something. -/
theorem toDo_read {n : ℕ} {cl : Client} {fds : ℤ → Option ℕ} {bs : List UInt8} {e : ReadEnd} {f : Feed}
    {evs : List ServerEvent} (h : Sound target st) (hn : 0 < n)
    (hfread : Fread n (st.feed st.cl.i) bs e f) (hpieces : (st.feed st.cl.i).pieces ≠ [])
    (hstep : ClientStep b st.cl (fun _ => none) 0 (.read bs e) cl fds evs) :
    ({ st with cl := cl, feed := Function.update st.feed st.cl.i f } : Reader).toDo < st.toDo := by
  have hcd := read_cd hstep
  have hless := hfread.less hn hpieces
  apply toDo_lt_of_weight
  apply Finset.sum_lt_sum
  · intro sid _
    simp only [slotWeight, hcd]
    by_cases hs : sid = st.cl.i
    · simp only [hs, Function.update_self, hfread.closed]
      omega
    · simp only [Function.update_of_ne hs, le_refl]
  · refine ⟨st.cl.i, Finset.mem_range.mpr h.i_lt, ?_⟩
    simp only [slotWeight, hcd, Function.update_self, hfread.closed]
    omega

theorem readObject_eof (size n : ℕ) : readObject size n 0 .eof = .ret 2 := by
  unfold readObject
  split <;> simp [streamError]

/-- A read on a connection that has gone silent or is at its end. -/
theorem toDo_silent {n : ℕ} {cl : Client} {fds : ℤ → Option ℕ} {bs : List UInt8} {e : ReadEnd} {f : Feed}
    {evs : List ServerEvent} (h : Sound target st) (hz : NoZero target) (hnot : ¬ st.Finished)
    (hn : 0 < n) (hfread : Fread n (st.feed st.cl.i) bs e f)
    (hpieces : (st.feed st.cl.i).pieces = [])
    (hstep : ClientStep b st.cl (fun _ => none) 0 (.read bs e) cl fds evs) :
    ({ st with cl := cl, feed := Function.update st.feed st.cl.i f } : Reader).toDo < st.toDo := by
  obtain ⟨hbs, hf, he⟩ := hfread.silent hn hpieces
  have hstill : ∀ {cl : Client}, cl.pc ≠ .tail → ¬ Moving cl := fun hne hmove => hne hmove.1
  rw [hf, Function.update_eq_self]
  rw [hbs, he] at hstep
  cases hclosed : (st.feed st.cl.i).closed with
  | true =>
      rw [hclosed, if_pos rfl] at hstep
      cases hstep with
      | @noHeader _ _ _ r hpc hret hr =>
          rw [List.length_nil, readObject_eof] at hret
          cases hret
          have hdist := dist_eq st (st.cl.fails (fun _ => none) 2) rfl rfl rfl rfl
            (hstill (by simp [Client.fails])) (hstill (by simp [hpc])) (by simp [Client.fails])
            (by simp [hpc]) (by simp [Client.fails]) (by simp [hpc])
          exact toDo_stay st _ rfl rfl hdist (by rw [hpc]; simp [Client.fails, rank])
      | @noValue q n' _ _ r hpc hret hr0 hr1 =>
          rw [List.length_nil, readObject_eof] at hret
          cases hret
          have hdist := dist_eq st ({ st.cl with
              valuebuf := storeBytes st.cl.valuebuf (st.cl.bufoffset + n') [] }.fails (fun _ => none) 2)
            rfl rfl rfl rfl (hstill (by simp [Client.fails])) (hstill (by simp [hpc]))
            (by simp [Client.fails]) (by simp [hpc]) (by simp [Client.fails]) (by simp [hpc])
          exact toDo_stay st _ rfl rfl hdist (by rw [hpc]; simp [Client.fails, rank])
      | moreHeader hpc hret | lookup hpc hret _ _ | insert hpc hret _ _ | invalid hpc hret _ _ _
      | moreValue hpc hret | insertDone hpc hret _ | retryValue hpc hret =>
          rw [List.length_nil, readObject_eof] at hret
          cases hret
  | false =>
      rw [hclosed, if_neg Bool.false_ne_true] at hstep
      obtain ⟨rest, howes⟩ := h.owes st.cl.i
      obtain ⟨-, hbegun⟩ := rest_of_silent h hz howes hpieces hclosed
      have hdead : ¬ st.Live st.cl.i := by
        intro hlive
        rcases hlive.2 with hp | hc
        · exact hp hpieces
        · rw [hclosed] at hc
          cases hc
      cases hpc : st.cl.pc with
      | header got =>
          rw [begun_header _ hpc] at hbegun
          have hlater : readObject QUERY_SIZE got.length 0 .again = .ret 1 := by
            rw [hbegun]
            rfl
          cases hstep with
          | @noHeader _ _ _ r hpc' hret hr =>
              rw [hpc] at hpc'
              cases hpc'
              rw [List.length_nil, hlater] at hret
              cases hret
              have hpass := dist_pass st (st.cl.fails (fun _ => none) 1) h hnot rfl rfl rfl rfl
                ⟨rfl, .inr rfl⟩ (hstill (by simp [hpc])) (by simp [hpc]) (by simp [hpc]) hdead
              exact toDo_pass st _ rfl rfl hpass
          | moreHeader hpc' hret | lookup hpc' hret _ _ | insert hpc' hret _ _
          | invalid hpc' hret _ _ _ =>
              rw [hpc] at hpc'
              cases hpc'
              rw [List.length_nil, hlater] at hret
              cases hret
          | moreValue hpc' _ | insertDone hpc' _ _ | retryValue hpc' _ | noValue hpc' _ _ _ =>
              rw [hpc] at hpc'
              cases hpc'
      | value q n =>
          rw [begun_value _ hpc] at hbegun
          have := congrArg List.length hbegun
          rw [List.length_append, HashQuery.length_bytes, List.length_nil] at this
          have hq : 0 < QUERY_SIZE := by decide
          omega
      | _ =>
          exfalso
          cases hstep <;> simp_all

/-- Every step leaves less to do, until nothing is left. -/
theorem toDo_next (hb : 0 < b) (h : Sound target st) (hz : NoZero target) (hnot : ¬ st.Finished) :
    (st.next b).toDo < st.toDo := by
  rcases next_cases (b := b) h.pc with ⟨cl, fds, evs, hstep, hnext⟩ |
    ⟨n, cl, fds, evs, hwants, hstep, hnext⟩ | ⟨hpc, hnext⟩
  · rw [hnext]
    exact toDo_go st cl hb h hnot hstep
  · have hn : 0 < n := by
      rcases hwants with ⟨got, hpc, rfl⟩ | ⟨q, bread, hpc, rfl⟩
      · have := (h.header got hpc).1
        omega
      · have := value_lt h hz hpc
        omega
    rw [hnext]
    by_cases hpieces : (st.feed st.cl.i).pieces = []
    · exact toDo_silent h hz hnot hn (Feed.fread_spec n _) hpieces hstep
    · exact toDo_read h hn (Feed.fread_spec n _) hpieces hstep
  · rw [hnext]
    exact toDo_lt_of_batch rfl rfl (h.query hpc)

/-- The thread comes to the end of what arrives. -/
theorem exists_finished (hb : 0 < b) (h : Sound target st) (hz : NoZero target) :
    ∃ k, Sound target ((next b)^[k] st) ∧ ((next b)^[k] st).Finished := by
  induction hk : st.toDo using Nat.strong_induction_on generalizing st with
  | _ m ih =>
      by_cases hfin : st.Finished
      · exact ⟨0, h, hfin⟩
      · obtain ⟨k, hsound, hdone⟩ := ih _ (hk ▸ toDo_next hb h hz hfin) (h.next hb) rfl
        exact ⟨k + 1, by rw [Function.iterate_succ_apply]; exact hsound,
          by rw [Function.iterate_succ_apply]; exact hdone⟩

end

/-! ### Decoding -/

/-- What arrives on a connection is what `sendqueries` sent for `qs`, cut off by the end of the stream
unless it is all of it. -/
structure Sent (qs : List ClientQuery) (f : Feed) : Prop where
  ok : ∀ q ∈ qs, q.Ok
  bytes : f.bytes <+: sendqueries qs
  whole : f.closed = false → f.bytes = sendqueries qs

/-- The requests that arrive in full. -/
def requests (qs : List ClientQuery) (f : Feed) : List (HashQuery × List UInt8) :=
  (complete qs f.bytes.length).map ClientQuery.request

/-- The thread has taken up the requests that arrived in full, and no other; nothing is left to read,
and the connection is closed if its stream has ended. -/
structure Decoded (qs : List ClientQuery) (f : Feed) (st : Reader) (sid : ℕ) : Prop where
  taken : taken sid st.out = requests qs f
  read : (st.feed sid).bytes = []
  closed : st.cl.cd.sockets sid = -1 ↔ f.closed = true

section

variable {b : ℕ} {conns : ℕ → Option (ℕ × Feed)} {qs : ℕ → List ClientQuery}

/-- What each slot is to give. -/
def targetOf (conns : ℕ → Option (ℕ × Feed)) (qs : ℕ → List ClientQuery) (sid : ℕ) :
    List (HashQuery × List UInt8) :=
  ((conns sid).map fun p => requests (qs sid) p.2).getD []

theorem sound_start (hsent : ∀ sid fd f, conns sid = some (fd, f) → Sent (qs sid) f) :
    Sound (targetOf conns qs) (start conns) where
  pc := trivial
  packed := ⟨trivial, rfl, Nat.zero_le _, fun q n hq => by cases hq⟩
  i_lt := show 0 < MAX_SOCKETS by decide
  last_lt := show 0 < MAX_SOCKETS by decide
  top := fun _ => rfl
  header := fun got h => by cases h
  value := fun q n h => by cases h
  query := fun h => by cases h
  closing := fun line tgt h => by cases h
  shut := by
    intro sid hsid
    cases hc : conns sid with
    | none => simp [start, hc]
    | some p => simp [start, hc] at hsid
  owes := by
    intro sid
    have hbegun : begun (start conns).cl sid = [] := begun_of_pc _ (fun got h => by cases h)
      (fun q n h => by cases h) sid
    cases hc : conns sid with
    | none =>
        refine ⟨[], by simp, ?_, ?_, ?_⟩
        · simp [targetOf, hc, complete, start, gathered, Server.start]
        · rw [unread, hbegun]
          simp [start, hc, Feed.bytes]
        · simp [start, hc]
    | some p =>
        obtain ⟨fd, f⟩ := p
        have hs := hsent sid fd f hc
        have hfeed : (start conns).feed sid = f := by simp [start, hc]
        refine ⟨qs sid, hs.ok, ?_, ?_, ?_⟩
        · rw [unread, hbegun, hfeed, List.nil_append]
          simp [targetOf, hc, requests, start, gathered, Server.start]
        · rw [unread, hbegun, hfeed, List.nil_append]
          exact hs.bytes
        · rw [unread, hbegun, hfeed, List.nil_append]
          exact hs.whole
  nonzero := fun p hp => by simp [start, gathered, Server.start] at hp

theorem sound_iterate (hb : 0 < b) (hsent : ∀ sid fd f, conns sid = some (fd, f) → Sent (qs sid) f)
    (k : ℕ) : Sound (targetOf conns qs) ((next b)^[k] (start conns)) := by
  induction k with
  | zero => exact sound_start hsent
  | succ k ih =>
      rw [Function.iterate_succ_apply']
      exact ih.next hb

theorem closed_next (st : Reader) (sid : ℕ) :
    ((st.next b).feed sid).closed = (st.feed sid).closed := by
  have hgo : ∀ a, (st.go b a).feed = st.feed := by
    intro a
    unfold go
    split <;> rfl
  have hfed : ∀ n, ((st.fed b n).feed sid).closed = (st.feed sid).closed := by
    intro n
    simp only [fed]
    by_cases hs : sid = st.cl.i
    · rw [hs, Function.update_self]
      exact (Feed.fread_spec n _).closed
    · rw [Function.update_of_ne hs]
  unfold next
  split
  · exact hfed _
  · exact hfed _
  · rfl
  · rw [hgo]

theorem closed_iterate (st : Reader) (k sid : ℕ) :
    (((next b)^[k] st).feed sid).closed = (st.feed sid).closed := by
  induction k with
  | zero => rfl
  | succ k ih => rw [Function.iterate_succ_apply', closed_next, ih]

/-- When nothing is left to do, the requests have been taken up. -/
theorem decoded_of_finished {st : Reader} {sid fd : ℕ} {f : Feed} (h : Sound (targetOf conns qs) st)
    (hz : NoZero (targetOf conns qs)) (hfin : st.Finished) (hsid : sid < MAX_SOCKETS)
    (hconn : conns sid = some (fd, f)) (hclosed : (st.feed sid).closed = f.closed) :
    Decoded (qs sid) f st sid := by
  obtain ⟨rest, howes⟩ := h.owes sid
  have hgath : gathered st.cl = [] := by rw [gathered, hfin.1, List.map_nil]
  have htarget := howes.target
  rw [hgath, List.append_nil, targetOf, hconn] at htarget
  have htaken : complete rest (st.unread sid).length = [] → taken sid st.out = requests (qs sid) f := by
    intro hnone
    rw [hnone, List.map_nil, List.append_nil] at htarget
    exact htarget.symm
  have hdead := hfin.2 sid hsid
  by_cases hsock : st.cl.cd.sockets sid = -1
  · obtain ⟨hpieces, hshut⟩ := h.shut sid hsock
    have hread : (st.feed sid).bytes = [] := by rw [Feed.bytes, hpieces, List.flatten_nil]
    have hbegun : begun st.cl sid = [] := by
      by_cases hs : st.cl.i = sid
      · rw [← hs] at hsock ⊢
        exact begun_of_pc _ (fun got hpc => ((h.header got hpc).2.1 hsock).elim)
          (fun q n hpc => (h.value q n hpc).1 hsock) _
      · rw [begun, if_neg hs]
    refine ⟨htaken ?_, hread, fun _ => hclosed ▸ hshut, fun _ => hsock⟩
    rw [unread, hbegun, hread, List.nil_append, List.length_nil, complete_zero]
  · have hpieces : (st.feed sid).pieces = [] := by
      by_contra hp
      exact hdead ⟨hsock, .inl hp⟩
    have hopen : (st.feed sid).closed = false := by
      cases hc : (st.feed sid).closed with
      | true => exact (hdead ⟨hsock, .inr hc⟩).elim
      | false => rfl
    obtain ⟨hrest, -⟩ := rest_of_silent h hz howes hpieces hopen
    refine ⟨htaken (by rw [hrest]; rfl), by rw [Feed.bytes, hpieces, List.flatten_nil],
      fun hs => (hsock hs).elim, fun hc => ?_⟩
    rw [← hclosed, hopen] at hc
    cases hc

/-- An insert of size zero is never taken up. -/
theorem no_zero_of_taken (hb : 0 < b)
    (hsent : ∀ sid fd f, conns sid = some (fd, f) → Sent (qs sid) f) {k sid : ℕ} {f : Feed}
    (hdec : Decoded (qs sid) f ((next b)^[k] (start conns)) sid) {q : ClientQuery}
    (hq : q ∈ complete (qs sid) f.bytes.length) : ¬ (q.optype = OPTYPE_INSERT ∧ q.size = 0) := by
  intro hzero
  have hmem : q.request ∈ taken sid ((next b)^[k] (start conns)).out := by
    rw [hdec.taken]
    exact List.mem_map_of_mem hq
  obtain ⟨p, hp, hpq⟩ := List.mem_filterMap.mp hmem
  have hnonzero := (sound_iterate hb hsent k).nonzero p (List.mem_append_left _ hp)
  split at hpq
  · have hreq := Option.some.inj hpq
    rw [ClientQuery.request, if_pos hzero.1] at hreq
    rw [hreq] at hnonzero
    exact hnonzero hzero.1 (by show q.size + 4 = 4; omega)
  · cases hpq

/-- Without one, everything is taken up. -/
theorem exists_decoded (hb : 0 < b) (hslots : ∀ sid, (conns sid).isSome → sid < MAX_SOCKETS)
    (hsent : ∀ sid fd f, conns sid = some (fd, f) → Sent (qs sid) f)
    (hz : ∀ sid fd f, conns sid = some (fd, f) →
      ∀ q ∈ complete (qs sid) f.bytes.length, ¬ (q.optype = OPTYPE_INSERT ∧ q.size = 0)) :
    ∃ k, ∀ sid fd f, conns sid = some (fd, f) →
      Decoded (qs sid) f ((next b)^[k] (start conns)) sid := by
  have hnone : NoZero (targetOf conns qs) := by
    intro sid p hp hzero
    cases hc : conns sid with
    | none => simp [targetOf, hc] at hp
    | some fdf =>
        obtain ⟨fd, f⟩ := fdf
        simp only [targetOf, hc, Option.map_some, Option.getD_some, requests] at hp
        obtain ⟨q, hq, rfl⟩ := List.mem_map.mp hp
        refine hz sid fd f hc q hq ?_
        rw [ClientQuery.request] at hzero
        split at hzero
        · next hop =>
          have hsize : q.size + 4 = 4 := hzero.2
          exact ⟨hop, by omega⟩
        · next hop => exact (hop hzero.1).elim
  obtain ⟨k, hsound, hfin⟩ := exists_finished hb (sound_start hsent) hnone
  refine ⟨k, fun sid fd f hconn => ?_⟩
  refine decoded_of_finished hsound hnone hfin (hslots sid (by rw [hconn]; rfl)) hconn ?_
  rw [closed_iterate]
  simp [start, hconn]

/-- **Decoding**: however the bytes that `sendqueries` sent arrive on the connections of a thread, what it
has taken up from a connection is at every moment a beginning of the requests that arrive in full; and it
takes up all of them, and closes the connections whose streams end, exactly when none of them is an insert
of size zero. -/
theorem decodes_iff (hb : 0 < b) (hslots : ∀ sid, (conns sid).isSome → sid < MAX_SOCKETS)
    (hsent : ∀ sid fd f, conns sid = some (fd, f) → Sent (qs sid) f) :
    (∀ k sid fd f, conns sid = some (fd, f) →
      taken sid ((next b)^[k] (start conns)).out <+: requests (qs sid) f) ∧
    ((∃ k, ∀ sid fd f, conns sid = some (fd, f) →
        Decoded (qs sid) f ((next b)^[k] (start conns)) sid) ↔
      ∀ sid fd f, conns sid = some (fd, f) →
        ∀ q ∈ complete (qs sid) f.bytes.length, ¬ (q.optype = OPTYPE_INSERT ∧ q.size = 0)) := by
  refine ⟨fun k sid fd f hconn => ?_, fun ⟨k, hdec⟩ sid fd f hconn q hq => ?_, ?_⟩
  · obtain ⟨rest, howes⟩ := (sound_iterate hb hsent k).owes sid
    have htarget := howes.target
    rw [targetOf, hconn, taken_append, List.append_assoc] at htarget
    exact ⟨_, htarget.symm⟩
  · exact no_zero_of_taken hb hsent (hdec sid fd f hconn) hq
  · exact exists_decoded hb hslots hsent

end

/-- A single connection. -/
theorem conn_at {k sid fd fd' : ℕ} {f f' : Feed}
    (h : (if sid = k then some (fd, f) else none) = some (fd', f')) : sid = k ∧ fd = fd' ∧ f = f' := by
  split at h
  · next hs =>
    cases h
    exact ⟨hs, rfl, rfl⟩
  · cases h

theorem slot_at {k fd : ℕ} {f : Feed} (hk : k < MAX_SOCKETS) (sid : ℕ)
    (h : (if sid = k then some (fd, f) else none : Option (ℕ × Feed)).isSome) : sid < MAX_SOCKETS := by
  obtain ⟨p, hp⟩ := Option.isSome_iff_exists.mp h
  rw [(conn_at hp).1]
  exact hk

/-- A lookup and an insert of two bytes, the last of which never arrives; what arrives comes in three
pieces. -/
def cutQueries : List ClientQuery := [⟨OPTYPE_LOOKUP, 7, 3, []⟩, ⟨OPTYPE_INSERT, 5, 2, [1, 2]⟩]

def cutFeed : Feed :=
  ⟨[(sendqueries cutQueries).take 10, ((sendqueries cutQueries).drop 10).take 15,
    ((sendqueries cutQueries).drop 25).take 8], true⟩

/-- An insert of size zero. -/
def zeroQueries : List ClientQuery := [⟨OPTYPE_INSERT, 5, 0, []⟩]

def zeroFeed : Feed := ⟨[sendqueries zeroQueries], true⟩

theorem decodes_cut : ∃ k, Decoded cutQueries cutFeed
    ((next 1000)^[k] (start fun sid => if sid = 3 then some (4, cutFeed) else none)) 3 := by
  have hok : ∀ q ∈ cutQueries, q.Ok := by
    intro q hq
    rcases List.mem_cons.mp hq with rfl | hq
    · exact ⟨by decide, .inl ⟨rfl, by decide⟩⟩
    · rw [List.mem_singleton.mp hq]
      exact ⟨by decide, .inr ⟨rfl, by decide, rfl⟩⟩
  have hbytes : cutFeed.bytes <+: sendqueries cutQueries := by decide +kernel
  have hsent : ∀ sid fd f, (if sid = 3 then some (4, cutFeed) else none) = some (fd, f) →
      Sent cutQueries f := by
    intro sid fd f h
    rw [← (conn_at h).2.2]
    exact ⟨hok, hbytes, fun hc => by cases hc⟩
  have hcomplete : ∀ q ∈ complete cutQueries cutFeed.bytes.length,
      ¬ (q.optype = OPTYPE_INSERT ∧ q.size = 0) := by decide +kernel
  obtain ⟨k, hk⟩ := (decodes_iff (b := 1000) (by decide) (slot_at (by decide)) hsent).2.mpr (by
    intro sid fd f h
    rw [← (conn_at h).2.2]
    exact hcomplete)
  exact ⟨k, hk 3 4 cutFeed rfl⟩

/-- A thread whose only connection sends an insert of size zero reads it for ever. -/
theorem zero_insert_hangs : ¬ ∀ (b : ℕ) (conns : ℕ → Option (ℕ × Feed)) (qs : ℕ → List ClientQuery),
    0 < b → (∀ sid, (conns sid).isSome → sid < MAX_SOCKETS) →
    (∀ sid fd f, conns sid = some (fd, f) → Sent (qs sid) f) →
    ∃ k, ∀ sid fd f, conns sid = some (fd, f) →
      Decoded (qs sid) f ((next b)^[k] (start conns)) sid := by
  intro hclaim
  have hsent : ∀ sid fd f, (if sid = 0 then some (4, zeroFeed) else none) = some (fd, f) →
      Sent zeroQueries f := by
    intro sid fd f h
    rw [← (conn_at h).2.2]
    refine ⟨fun q hq => ?_, by decide +kernel, fun hc => by cases hc⟩
    rw [List.mem_singleton.mp hq]
    exact ⟨by decide, .inr ⟨rfl, by decide, rfl⟩⟩
  obtain ⟨k, hk⟩ := hclaim 1000 _ _ (by decide) (slot_at (by decide)) hsent
  exact no_zero_of_taken (by decide) hsent (hk 0 4 zeroFeed rfl)
    (show ⟨OPTYPE_INSERT, 5, 0, []⟩ ∈ complete zeroQueries zeroFeed.bytes.length by decide +kernel)
    ⟨rfl, rfl⟩

end Reader

end HashServer

end SmpHashTable
