import ClaudeFleet.FrameCodec

/-! The guard in front of a database connection, which destroys the stream when the header of a
message announces a body above the limit, however the bytes come in chunks. -/
namespace ClaudeFleet.MessageGuard
open FrameCodec

/-- The bytes of a body yet to come, or those of a header that are there. -/
structure Guard where
  body : ℕ := 0
  head : List UInt8 := []
  short : head.length < 5 := by decide

/-- The length of the body that a header announces. -/
def bodyLength (head : List UInt8) : ℕ := readUInt32BE (head.drop 1) - 4

/-- A chunk is read; the stream is destroyed for a body of that length. -/
def feed (max : ℕ) (g : Guard) (chunk : List UInt8) : Except ℕ Guard :=
  match chunk with
  | [] => .ok g
  | b :: chunk =>
    if 0 < g.body then
      let n := min g.body (chunk.length + 1)
      feed max { g with body := g.body - n } ((b :: chunk).drop n)
    else
      let head := g.head ++ (b :: chunk).take (5 - g.head.length)
      let rest := (b :: chunk).drop (5 - g.head.length)
      if h : head.length < 5 then .ok { g with head, short := h }
      else if max < bodyLength head then .error (bodyLength head)
      else feed max { body := bodyLength head } rest
  termination_by chunk.length
  decreasing_by
    · simp only [List.length_drop, List.length_cons]
      omega
    · have := g.short
      simp only [List.length_drop, List.length_cons]
      omega

def errorText (max len : ℕ) : String := s!"a Postgres message of {len} bytes exceeds {max}"

/-- The chunk, by its number, with which the stream is destroyed; no chunk comes after it. -/
def destroyedAt (max : ℕ) (g : Guard) : List (List UInt8) → Option ℕ
  | [] => none
  | chunk :: chunks =>
    match feed max g chunk with
    | .error _ => some 0
    | .ok g => (destroyedAt max g chunks).map (· + 1)

/-- A message of the backend, whose length word counts itself and the body. -/
structure Message where
  type : UInt8
  body : List UInt8
  fits : body.length + 4 < 2 ^ 32

def Message.header (m : Message) : List UInt8 := m.type :: uint32BE (m.body.length + 4)

def Message.bytes (m : Message) : List UInt8 := m.header ++ m.body

/-! Byte by byte. -/

def feedByte (max : ℕ) (g : Guard) (b : UInt8) : Except ℕ Guard :=
  if 0 < g.body then .ok { g with body := g.body - 1 }
  else
    let head := g.head ++ [b]
    if h : head.length < 5 then .ok { g with head, short := h }
    else if max < bodyLength head then .error (bodyLength head)
    else .ok { body := bodyLength head }

/-- What the bytes read one by one come to. -/
def feedBytes (max : ℕ) (g : Guard) (bytes : List UInt8) : Except ℕ Guard :=
  bytes.foldlM (feedByte max) g

variable {max : ℕ}

theorem feedBytes_append (g : Guard) (as bs : List UInt8) :
    feedBytes max g (as ++ bs) = feedBytes max g as >>= fun g => feedBytes max g bs :=
  List.foldlM_append

theorem feedBytes_split (g : Guard) (n : ℕ) (bytes : List UInt8) :
    feedBytes max g bytes =
      feedBytes max g (bytes.take n) >>= fun g => feedBytes max g (bytes.drop n) := by
  rw [← feedBytes_append, List.take_append_drop]

theorem feedBytes_singleton (g : Guard) (b : UInt8) :
    feedBytes max g [b] = feedByte max g b := by
  simp [feedBytes]

variable (max) in
/-- Bytes of a body are passed over. -/
theorem feedBytes_body (g : Guard) (bytes : List UInt8) (h : bytes.length ≤ g.body) :
    feedBytes max g bytes = .ok { g with body := g.body - bytes.length } := by
  induction bytes generalizing g with
  | nil => rfl
  | cons b bytes ih =>
    rw [List.length_cons] at h
    have hpos : 0 < g.body := by omega
    have hone : feedByte max g b = .ok { g with body := g.body - 1 } := if_pos hpos
    show feedByte max g b >>= (fun g => feedBytes max g bytes) = _
    rw [hone]
    show feedBytes max _ bytes = _
    rw [ih _ (by dsimp only; omega)]
    congr 2
    simp only [List.length_cons]
    omega

variable (max) in
/-- Bytes of a header are kept until it is whole. -/
theorem feedBytes_head (g : Guard) (bytes : List UInt8) (hbody : g.body = 0)
    (h : (g.head ++ bytes).length < 5) :
    feedBytes max g bytes = .ok { g with head := g.head ++ bytes, short := h } := by
  induction bytes generalizing g with
  | nil => simp [feedBytes, pure, Except.pure]
  | cons b bytes ih =>
    have hlen : (g.head ++ [b]).length < 5 := by
      simp only [List.length_append, List.length_cons, List.length_nil] at h ⊢
      omega
    have hone : feedByte max g b = .ok { g with head := g.head ++ [b], short := hlen } := by
      unfold feedByte
      rw [if_neg (by omega)]
      dsimp only
      rw [dif_pos hlen]
    show feedByte max g b >>= (fun g => feedBytes max g bytes) = _
    rw [hone]
    show feedBytes max _ bytes = _
    rw [ih ⟨g.body, g.head ++ [b], hlen⟩ hbody (by simpa [Nat.add_assoc, Nat.add_comm] using h)]
    simp

variable (max) in
/-- The byte that makes the header whole decides. -/
theorem feedByte_last (g : Guard) (b : UInt8) (hbody : g.body = 0)
    (h : (g.head ++ [b]).length = 5) :
    feedByte max g b =
      if max < bodyLength (g.head ++ [b]) then .error (bodyLength (g.head ++ [b]))
      else .ok { body := bodyLength (g.head ++ [b]) } := by
  unfold feedByte
  rw [if_neg (by omega)]
  dsimp only
  rw [dif_neg (by omega)]

variable (max) in
/-- A header that becomes whole. -/
theorem feedBytes_header (g : Guard) (bytes : List UInt8) (hbody : g.body = 0)
    (h : (g.head ++ bytes).length = 5) :
    feedBytes max g bytes =
      if max < bodyLength (g.head ++ bytes) then .error (bodyLength (g.head ++ bytes))
      else .ok { body := bodyLength (g.head ++ bytes) } := by
  have hshort := g.short
  rcases List.eq_nil_or_concat bytes with rfl | ⟨bytes, b, rfl⟩
  · rw [List.append_nil] at h
    omega
  · rw [List.concat_eq_append, ← List.append_assoc] at h ⊢
    have hlen : (g.head ++ bytes).length < 5 := by
      rw [List.length_append, List.length_singleton] at h
      omega
    rw [feedBytes_append, feedBytes_head max g bytes hbody hlen]
    show feedBytes max _ [b] = _
    have hlast := feedByte_last max { g with head := g.head ++ bytes, short := hlen } b
      hbody h
    show feedByte max _ b >>= (fun g => feedBytes max g []) = _
    rw [hlast]
    split_ifs <;> rfl

theorem length_whole {g : Guard} {chunk : List UInt8}
    (h : ¬(g.head ++ chunk.take (5 - g.head.length)).length < 5) :
    (g.head ++ chunk.take (5 - g.head.length)).length = 5 := by
  have := g.short
  rw [List.length_append, List.length_take] at h ⊢
  omega

/-- A chunk is read as its bytes one by one are. -/
theorem feed_eq (g : Guard) (chunk : List UInt8) : feed max g chunk = feedBytes max g chunk := by
  induction g, chunk using feed.induct max with
  | case1 g => simp [feed, feedBytes, pure, Except.pure]
  | case2 g b chunk hpos n ih =>
    have hlen : ((b :: chunk).take n).length = n := by
      rw [List.length_take, List.length_cons]
      exact min_eq_left (min_le_right _ _)
    have hbody := feedBytes_body max g ((b :: chunk).take n)
      (hlen.le.trans (min_le_left _ _))
    rw [feed, if_pos hpos, ih, feedBytes_split g n (b :: chunk), hbody, hlen]
    rfl
  | case3 g b chunk hpos head h =>
    have hall : (b :: chunk).take (5 - g.head.length) = b :: chunk := by
      refine List.take_of_length_le ?_
      simp only [head, List.length_append, List.length_take, List.length_cons] at h ⊢
      omega
    rw [feed, if_neg hpos]
    dsimp only
    rw [dif_pos h, feedBytes_head max g _ (by omega) (by rw [← hall]; exact h)]
    simp only [hall]
  | case4 g b chunk hpos head h hmax =>
    have hwhole : head.length = 5 := length_whole h
    have hheader := feedBytes_header max g ((b :: chunk).take (5 - g.head.length))
      (by omega) hwhole
    rw [feed, if_neg hpos]
    dsimp only
    rw [dif_neg h, if_pos hmax, feedBytes_split g (5 - g.head.length) (b :: chunk),
      hheader, if_pos hmax]
    rfl
  | case5 g b chunk hpos head rest h hmax ih =>
    have hwhole : head.length = 5 := length_whole h
    have hheader := feedBytes_header max g ((b :: chunk).take (5 - g.head.length))
      (by omega) hwhole
    rw [feed, if_neg hpos]
    dsimp only
    rw [dif_neg h, if_neg hmax, ih, feedBytes_split g (5 - g.head.length) (b :: chunk),
      hheader, if_neg hmax]
    rfl

/-! Messages. -/

theorem length_header (m : Message) : m.header.length = 5 := rfl

theorem bodyLength_header (m : Message) : bodyLength m.header = m.body.length := by
  have hread := readUInt32BE_uint32BE m.fits []
  rw [List.append_nil] at hread
  show readUInt32BE (uint32BE (m.body.length + 4)) - 4 = m.body.length
  rw [hread, Nat.add_sub_cancel]

/-- After a whole message within the limit the guard is as at first. -/
theorem feedBytes_message (m : Message) (h : m.body.length ≤ max) :
    feedBytes max {} m.bytes = .ok {} := by
  have hheader := feedBytes_header max {} m.header rfl (length_header m)
  rw [List.nil_append, bodyLength_header, if_neg (not_lt.mpr h)] at hheader
  rw [Message.bytes, feedBytes_append, hheader]
  show feedBytes max _ m.body = _
  rw [feedBytes_body max _ _ le_rfl]
  simp

theorem feedBytes_messages (ms : List Message) (h : ∀ m ∈ ms, m.body.length ≤ max) :
    feedBytes max {} (ms.flatMap Message.bytes) = .ok {} := by
  induction ms with
  | nil => rfl
  | cons m ms ih =>
    rw [List.flatMap_cons, feedBytes_append, feedBytes_message m (h m List.mem_cons_self)]
    exact ih fun m' hm' => h m' (List.mem_cons_of_mem _ hm')

/-- A message above the limit is told by the last byte of its header. -/
theorem feedBytes_oversize (m : Message) (h : max < m.body.length) :
    ∃ start last g, m.header = start ++ [last] ∧ start.length = 4 ∧
      feedBytes max {} start = .ok g ∧ feedByte max g last = .error m.body.length := by
  have hlen : m.header.dropLast.length = 4 := by
    rw [List.length_dropLast, length_header]
  have hne : m.header ≠ [] := List.cons_ne_nil _ _
  have hsplit := (List.dropLast_append_getLast hne).symm
  have hstart := feedBytes_head max {} m.header.dropLast rfl
    (by rw [List.nil_append, hlen]; decide)
  have hheader := feedBytes_header max {} m.header rfl (length_header m)
  rw [List.nil_append, bodyLength_header, if_pos h, hsplit, feedBytes_append, hstart] at hheader
  refine ⟨_, _, _, hsplit, hlen, hstart, ?_⟩
  rw [← feedBytes_singleton]
  exact hheader

/-! Chunks. -/

theorem destroyedAt_none {chunks : List (List UInt8)} :
    ∀ {g g' : Guard}, feedBytes max g chunks.flatten = .ok g' → destroyedAt max g chunks = none := by
  induction chunks with
  | nil => intro _ _ _; rfl
  | cons chunk chunks ih =>
    intro g g' h
    rw [List.flatten_cons, feedBytes_append] at h
    unfold destroyedAt
    rw [feed_eq]
    cases hchunk : feedBytes max g chunk with
    | error len => simp [hchunk, bind, Except.bind] at h
    | ok g₁ =>
      rw [hchunk] at h
      simp [ih h]

/-- The chunk in which a byte destroys the stream is the one that has that byte. -/
theorem destroyedAt_some {chunks : List (List UInt8)} :
    ∀ {g g' : Guard} {good after : List UInt8} {b : UInt8} {len : ℕ},
      chunks.flatten = good ++ b :: after → feedBytes max g good = .ok g' →
      feedByte max g' b = .error len →
      ∃ i, destroyedAt max g chunks = some i ∧ (chunks.take i).flatten.length ≤ good.length ∧
        good.length < (chunks.take (i + 1)).flatten.length := by
  induction chunks with
  | nil =>
    intro g g' good after b len h
    simp at h
  | cons chunk chunks ih =>
    intro g g' good after b len h hgood hb
    rw [List.flatten_cons] at h
    rcases List.append_eq_append_iff.mp h with ⟨rest, rfl, hrest⟩ | ⟨rest, rfl, hrest⟩
    · -- the whole chunk comes before the byte
      rw [feedBytes_append] at hgood
      cases hchunk : feedBytes max g chunk with
      | error len => simp [hchunk, bind, Except.bind] at hgood
      | ok g₁ =>
        rw [hchunk] at hgood
        obtain ⟨i, hi, hlow, hhigh⟩ := ih hrest hgood hb
        refine ⟨i + 1, ?_, ?_, ?_⟩
        · unfold destroyedAt
          rw [feed_eq, hchunk]
          simp [hi]
        · simp only [List.take_succ_cons, List.flatten_cons, List.length_append]
          omega
        · simp only [List.take_succ_cons, List.flatten_cons, List.length_append]
          omega
    · cases rest with
      | nil =>
        -- the byte is the first after the chunk
        rw [List.append_nil] at h ⊢
        have hnext : chunks.flatten = [] ++ b :: after := hrest.symm
        obtain ⟨i, hi, hlow, hhigh⟩ := ih (g := g') hnext rfl hb
        refine ⟨i + 1, ?_, ?_, ?_⟩
        · unfold destroyedAt
          rw [feed_eq, hgood]
          simp [hi]
        · simp only [List.take_succ_cons, List.flatten_cons, List.length_append]
          simp only [List.length_nil] at hlow
          omega
        · simp only [List.take_succ_cons, List.flatten_cons, List.length_append]
          simp only [List.length_nil] at hhigh
          omega
      | cons c rest =>
        obtain ⟨rfl, -⟩ := List.cons.inj hrest
        refine ⟨0, ?_, Nat.zero_le _, ?_⟩
        · unfold destroyedAt
          rw [feed_eq, feedBytes_append, hgood]
          show (match feedByte max g' b >>= fun g => feedBytes max g rest with
            | .error _ => some 0
            | .ok g => (destroyedAt max g chunks).map (· + 1)) = some 0
          rw [hb]
          rfl
        · simp only [List.take_succ_cons, List.take_zero, List.flatten_cons, List.flatten_nil,
            List.length_append, List.length_cons, List.length_nil]
          omega

/-- However the messages are cut into chunks: the stream is destroyed with the chunk that has the
last byte of the header of the first message above the limit, and not at all without one. -/
theorem guardMessageSize_exact (max : ℕ) (ms : List Message) (chunks : List (List UInt8))
    (h : chunks.flatten = ms.flatMap Message.bytes) :
    (∀ before m after, ms = before ++ m :: after → (∀ m' ∈ before, m'.body.length ≤ max) →
      max < m.body.length →
      ∃ i, destroyedAt max {} chunks = some i ∧
        (chunks.take i).flatten.length ≤ (before.flatMap Message.bytes).length + 4 ∧
        (before.flatMap Message.bytes).length + 4 < (chunks.take (i + 1)).flatten.length) ∧
    ((∀ m ∈ ms, m.body.length ≤ max) → destroyedAt max {} chunks = none) := by
  constructor
  · rintro before m after rfl hbefore hover
    obtain ⟨start, last, g, hheader, hlen, hstart, hlast⟩ := feedBytes_oversize m hover
    have hgood : feedBytes max {} (before.flatMap Message.bytes ++ start) = .ok g := by
      rw [feedBytes_append, feedBytes_messages before hbefore]
      exact hstart
    have hbytes : chunks.flatten = (before.flatMap Message.bytes ++ start) ++
        last :: (m.body ++ after.flatMap Message.bytes) := by
      rw [h, List.flatMap_append, List.flatMap_cons, Message.bytes, hheader]
      simp
    have hsome := destroyedAt_some hbytes hgood hlast
    rwa [List.length_append, hlen] at hsome
  · intro hall
    exact destroyedAt_none (h ▸ feedBytes_messages ms hall)

/-- A message within a limit of one byte and one above it. -/
def oneAndTwo : List Message := [⟨65, [1], by decide⟩, ⟨66, [1, 2], by decide⟩]

theorem oneAndTwo_destroyed : ∃ i,
    destroyedAt 1 {} [[65, 0], [0, 0, 5, 1, 66, 0, 0], [0], [6, 1], [2]] = some i ∧
    ([[65, 0], [0, 0, 5, 1, 66, 0, 0], [0], [6, 1], [2]].take i : List (List UInt8)).flatten.length
      ≤ 10 := by
  obtain ⟨i, hi, hlow, -⟩ := (guardMessageSize_exact 1 oneAndTwo
    [[65, 0], [0, 0, 5, 1, 66, 0, 0], [0], [6, 1], [2]] (by decide)).1
    [⟨65, [1], by decide⟩] ⟨66, [1, 2], by decide⟩ [] rfl (by decide) (by decide)
  exact ⟨i, hi, hlow⟩

end ClaudeFleet.MessageGuard
