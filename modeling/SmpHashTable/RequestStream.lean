import SmpHashTable.ValueBuffer

/-!
# The request stream of a connection

What `sendqueries` of `hashclient.c` puts on a connection, how the bytes arrive at a non-blocking
socket in pieces, and a client thread that reads them from its connections.
-/

namespace SmpHashTable

@[simp] theorem HashQuery.length_bytes (q : HashQuery) : q.bytes.length = QUERY_SIZE := by
  simp [HashQuery.bytes, QUERY_SIZE]

theorem HashQuery.ofBytes_bytes {q : HashQuery} (hop : q.optype < 2 ^ 32) (hsize : q.size < 2 ^ 32)
    (hkey : q.key < 2 ^ 64) : HashQuery.ofBytes q.bytes = q := by
  obtain ⟨optype, size, key⟩ := q
  have h0 : (HashQuery.bytes ⟨optype, size, key⟩).take 4 = Bytes.le 4 optype := by
    rw [HashQuery.bytes, List.take_left' (Bytes.length_le 4 _)]
  have h4 : (HashQuery.bytes ⟨optype, size, key⟩).drop 4 = Bytes.le 4 size ++ Bytes.le 8 key := by
    rw [HashQuery.bytes, List.drop_left' (Bytes.length_le 4 _)]
  have h8 : (HashQuery.bytes ⟨optype, size, key⟩).drop 8 = Bytes.le 8 key := by
    rw [show 8 = 4 + 4 from rfl, ← List.drop_drop, h4, List.drop_left' (Bytes.length_le 4 _)]
  rw [HashQuery.ofBytes, h0, h4, h8, List.take_left' (Bytes.length_le 4 _), Bytes.ofLe_le,
    Bytes.ofLe_le, Bytes.ofLe_le, Nat.mod_eq_of_lt (by simpa using hop),
    Nat.mod_eq_of_lt (by simpa using hsize), Nat.mod_eq_of_lt (by simpa using hkey)]

theorem HashQuery.bytes_ofBytes {bs : List UInt8} (h : bs.length = QUERY_SIZE) :
    (HashQuery.ofBytes bs).bytes = bs := by
  have hlen : bs.length = 16 := h
  have h1 : (bs.take 4).length = 4 := by rw [List.length_take]; omega
  have h2 : ((bs.drop 4).take 4).length = 4 := by rw [List.length_take, List.length_drop]; omega
  have h3 : (bs.drop 8).length = 8 := by rw [List.length_drop]; omega
  have e1 := Bytes.le_ofLe (bs.take 4)
  have e2 := Bytes.le_ofLe ((bs.drop 4).take 4)
  have e3 := Bytes.le_ofLe (bs.drop 8)
  rw [h1] at e1
  rw [h2] at e2
  rw [h3] at e3
  rw [HashQuery.ofBytes, HashQuery.bytes, e1, e2, e3,
    show bs.drop 8 = (bs.drop 4).drop 4 by rw [List.drop_drop], List.take_append_drop,
    List.take_append_drop]

namespace HashServer

/-! ### The client's side -/

/-- `struct client_query`, with the value that it points to. -/
structure ClientQuery where
  optype : ℕ
  key : ℕ
  size : ℕ
  value : List UInt8
  deriving DecidableEq, Repr

/-- A lookup with any size field, or an insert of at most `MAX_VALUE_SIZE` bytes. -/
def ClientQuery.Ok (q : ClientQuery) : Prop :=
  q.key < 2 ^ 64 ∧ (q.optype = OPTYPE_LOOKUP ∧ q.size < 2 ^ 32 ∨
    q.optype = OPTYPE_INSERT ∧ q.size ≤ MAX_VALUE_SIZE ∧ q.value.length = q.size)

/-- The header that `sendquery_` sends. -/
def ClientQuery.header (q : ClientQuery) : HashQuery := ⟨q.optype, q.size, q.key⟩

/-- `sendquery_`: the bytes it writes. -/
def sendquery (q : ClientQuery) : List UInt8 :=
  q.header.bytes ++ if q.optype = OPTYPE_INSERT ∧ 0 < q.size then q.value.take q.size else []

/-- `sendqueries`: the bytes it writes. -/
def sendqueries (qs : List ClientQuery) : List UInt8 := qs.flatMap sendquery

/-- The queries whose bytes are complete within the first `n`. -/
def complete : List ClientQuery → ℕ → List ClientQuery
  | [], _ => []
  | q :: qs, n => if (sendquery q).length ≤ n then q :: complete qs (n - (sendquery q).length) else []

/-- What the server has to make of a query: the query with its value, whose size is increased by four
for the size field in front of it. -/
def ClientQuery.request (q : ClientQuery) : HashQuery × List UInt8 :=
  if q.optype = OPTYPE_INSERT then (⟨q.optype, q.size + 4, q.key⟩, q.value) else (q.header, [])

theorem ClientQuery.Ok.optype {q : ClientQuery} (h : q.Ok) :
    q.optype = OPTYPE_LOOKUP ∨ q.optype = OPTYPE_INSERT := h.2.imp And.left And.left

theorem ClientQuery.Ok.size_lt {q : ClientQuery} (h : q.Ok) : q.size < 2 ^ 32 := by
  have hmax : MAX_VALUE_SIZE < 2 ^ 32 := by decide
  rcases h.2 with ⟨-, hsize⟩ | ⟨-, hsize, -⟩ <;> omega

theorem ClientQuery.Ok.ofBytes_header {q : ClientQuery} (h : q.Ok) :
    HashQuery.ofBytes q.header.bytes = q.header := by
  apply HashQuery.ofBytes_bytes _ h.size_lt h.1
  show q.optype < 2 ^ 32
  rcases h.optype with hop | hop <;> rw [hop] <;> decide

theorem sendquery_lookup {q : ClientQuery} (h : q.optype = OPTYPE_LOOKUP) :
    sendquery q = q.header.bytes := by
  have hne : ¬ (q.optype = OPTYPE_INSERT ∧ 0 < q.size) := by
    rw [h]
    exact fun hand => absurd hand.1 (by decide)
  rw [sendquery, if_neg hne, List.append_nil]

theorem sendquery_insert {q : ClientQuery} (hok : q.Ok) (h : q.optype = OPTYPE_INSERT) :
    sendquery q = q.header.bytes ++ q.value := by
  have hlen : q.value.length = q.size := by
    rcases hok.2 with ⟨hop, -⟩ | ⟨-, -, hlen⟩
    · rw [h] at hop
      cases hop
    · exact hlen
  rw [sendquery]
  by_cases hsize : 0 < q.size
  · rw [if_pos ⟨h, hsize⟩, ← hlen, List.take_length]
  · have hnil : q.value = [] := List.eq_nil_of_length_eq_zero (by omega)
    rw [if_neg (fun hand => hsize hand.2), hnil]

theorem length_sendquery (q : ClientQuery) : QUERY_SIZE ≤ (sendquery q).length := by
  rw [sendquery, List.length_append, HashQuery.length_bytes]
  omega

@[simp] theorem complete_zero (qs : List ClientQuery) : complete qs 0 = [] := by
  cases qs with
  | nil => rfl
  | cons q qs =>
      have hlen := length_sendquery q
      have hpos : 0 < QUERY_SIZE := by decide
      rw [complete, if_neg (by omega)]

theorem sendqueries_cons (q : ClientQuery) (qs : List ClientQuery) :
    sendqueries (q :: qs) = sendquery q ++ sendqueries qs := List.flatMap_cons ..

/-! ### The bytes arrive -/

/-- What arrives on a connection: the pieces, with `EAGAIN` between them, and then the end of the stream
if `closed`, or nothing. -/
structure Feed where
  pieces : List (List UInt8)
  closed : Bool
  deriving DecidableEq, Repr

namespace Feed

/-- All that is to come. -/
def bytes (f : Feed) : List UInt8 := f.pieces.flatten

/-- `fread` of `n` bytes, as C stdio specifies it. -/
def fread (n : ℕ) (f : Feed) : List UInt8 × ReadEnd × Feed :=
  if n = 0 then ([], .full, f)
  else
    match f.pieces with
    | [] => ([], if f.closed then .eof else .again, f)
    | p :: ps =>
        if n ≤ p.length then (p.take n, .full, { f with pieces := p.drop n :: ps })
        else (p, if ps = [] ∧ f.closed then .eof else .again, { f with pieces := ps })

/-- What is left to read, the pauses included. -/
def weight (f : Feed) : ℕ := f.bytes.length + f.pieces.length

end Feed

/-- What an `fread` does. -/
structure Fread (n : ℕ) (f : Feed) (bs : List UInt8) (e : ReadEnd) (f' : Feed) : Prop where
  bytes : bs ++ f'.bytes = f.bytes
  closed : f'.closed = f.closed
  ok : FreadOk n bs e
  noFail : e ≠ .fail
  eof : e = .eof → f.closed = true ∧ f'.pieces = []
  silent : 0 < n → f.pieces = [] → bs = [] ∧ f' = f ∧ e = if f.closed then .eof else .again
  less : 0 < n → f.pieces ≠ [] → f'.weight < f.weight

theorem Feed.fread_spec (n : ℕ) (f : Feed) :
    Fread n f (f.fread n).1 (f.fread n).2.1 (f.fread n).2.2 := by
  rcases Nat.eq_zero_or_pos n with rfl | hn
  · simp only [Feed.fread, if_true]
    exact ⟨rfl, rfl, ⟨le_rfl, by simp⟩, by simp, by simp, by simp, by simp⟩
  have hn' : n ≠ 0 := by omega
  cases hp : f.pieces with
  | nil =>
      simp only [Feed.fread, if_neg hn', hp]
      refine ⟨rfl, rfl, ⟨Nat.zero_le n, ?_⟩, ?_, ?_, fun _ _ => ⟨rfl, rfl, rfl⟩,
        fun _ h => (h hp).elim⟩
      · rw [List.length_nil]
        split <;> simp [hn'.symm]
      · split <;> simp
      · intro he
        refine ⟨?_, hp⟩
        by_contra hc
        simp [hc] at he
  | cons p ps =>
      simp only [Feed.fread, if_neg hn', hp]
      split
      · next hle =>
        refine ⟨?_, rfl, ⟨?_, ?_⟩, by simp, by simp, by simp [hp], fun _ _ => ?_⟩
        · simp [Feed.bytes, hp, ← List.append_assoc]
        · simp
        · simp [hle]
        · simp [Feed.weight, Feed.bytes, hp]
          omega
      · next hlt =>
        refine ⟨by simp [Feed.bytes, hp], rfl, ⟨by simp only; omega, ?_⟩, ?_, ?_, by simp [hp],
          fun _ _ => ?_⟩
        · split <;> simp <;> omega
        · split <;> simp
        · intro he
          by_cases hlast : ps = [] ∧ f.closed = true
          · exact ⟨hlast.2, hlast.1⟩
          · simp [hlast] at he
        · simp [Feed.weight, Feed.bytes, hp]
          omega

/-! ### The value buffer -/

theorem length_loadBytes (buf : ℤ → UInt8) (off : ℤ) (n : ℕ) : (loadBytes buf off n).length = n := by
  simp [loadBytes]

/-- What is stored behind a region is read back with it. -/
theorem loadBytes_store_append (buf : ℤ → UInt8) (off : ℤ) (n : ℕ) (bs : List UInt8) :
    loadBytes (storeBytes buf (off + n) bs) off (n + bs.length) = loadBytes buf off n ++ bs := by
  apply List.ext_getElem
  · simp [length_loadBytes]
  · intro j h₁ h₂
    rw [length_loadBytes] at h₁
    simp only [loadBytes, List.getElem_map, List.getElem_range, storeBytes]
    rcases Nat.lt_or_ge j n with hj | hj
    · rw [if_neg (by omega), List.getElem_append_left (by simpa using hj)]
      simp
    · rw [if_pos (by omega), List.getElem_append_right (by simpa using hj)]
      have hidx : (off + j - (off + n)).toNat = j - n := by omega
      simp only [hidx, List.length_map, List.length_range]
      rw [List.getD_eq_getElem _ _ (by omega)]

/-- What is stored behind a region leaves it alone. -/
theorem loadBytes_store_of_le {buf : ℤ → UInt8} {off off' : ℤ} {n : ℕ} {bs : List UInt8}
    (h : off + n ≤ off') : loadBytes (storeBytes buf off' bs) off n = loadBytes buf off n := by
  apply List.map_congr_left
  intro j hj
  rw [List.mem_range] at hj
  simp only [storeBytes]
  rw [if_neg (by omega)]

/-! ### A thread and its connections -/

/-- A query of the batch with its value, as the result loop sees them. -/
def Entry.request (buf : ℤ → UInt8) (e : Entry) : HashQuery × List UInt8 :=
  (e.query, if e.query.optype = OPTYPE_INSERT then loadBytes buf e.offset e.valueSize else [])

/-- A client thread, what is to come on each of its slots, and the queries it has taken up, each with
its slot. -/
structure Reader where
  cl : Client
  feed : ℕ → Feed
  out : List (ℕ × (HashQuery × List UInt8))

namespace Reader

/-- The thread takes a step. -/
def go (b : ℕ) (st : Reader) (a : ClientAct) : Reader :=
  match clientgo b st.cl (fun _ => none) 0 a with
  | .ok (cl, _) => { st with cl := cl }
  | .error _ => st

/-- The thread reads from the connection of its slot. -/
def fed (b : ℕ) (st : Reader) (n : ℕ) : Reader :=
  let (bs, e, f) := (st.feed st.cl.i).fread n
  { st.go b (.read bs e) with feed := Function.update st.feed st.cl.i f }

/-- The queries of the batch. -/
def gathered (cl : Client) : List (ℕ × (HashQuery × List UInt8)) :=
  cl.batch.map fun e => (e.sid, e.request cl.valuebuf)

/-- The next step.  A batch that is complete is taken up as a whole, since what happens to it until the
next one does not touch the connections. -/
def next (b : ℕ) (st : Reader) : Reader :=
  match st.cl.pc with
  | .header got => st.fed b (QUERY_SIZE - got.length)
  | .value q bread => st.fed b (q.size - bread)
  | .query =>
      { st with
        cl := { st.cl with batch := [], bufoffset := 0, pc := .top }
        out := st.out ++ gathered st.cl }
  | _ => st.go b .go

/-- A thread with the connections `conns`, each with its descriptor. -/
def start (conns : ℕ → Option (ℕ × Feed)) : Reader where
  cl := { (Server.start 0 0).client 0 with
    cd := ⟨0, fun sid => ((conns sid).map fun p => (p.1 : ℤ)).getD (-1), fun _ => -1⟩ }
  feed := fun sid => ((conns sid).map Prod.snd).getD ⟨[], true⟩
  out := []

/-- The queries read from slot `sid`, in order. -/
def taken (sid : ℕ) (ps : List (ℕ × (HashQuery × List UInt8))) : List (HashQuery × List UInt8) :=
  ps.filterMap fun p => if p.1 = sid then some p.2 else none

/-- The bytes of an object that the thread has begun to read. -/
def begun (cl : Client) (sid : ℕ) : List UInt8 :=
  if cl.i = sid then
    match cl.pc with
    | .header got => got
    | .value q bread => q.bytes ++ loadBytes cl.valuebuf cl.bufoffset bread
    | _ => []
  else []

end Reader

end HashServer

end SmpHashTable
