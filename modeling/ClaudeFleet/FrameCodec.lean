import ClaudeFleet.PrefixDecoder

/-! The frame format between host and broker, `[u32 totalLen BE][u8 type][payload]`, and its
three readers: the host's incremental `FrameReader`, the broker's blocking `ReadFrame`, and the
hub's `wholeFrames` for one WebSocket message. -/
namespace ClaudeFleet.FrameCodec
open PrefixDecoder

structure Frame where
  type : UInt8
  payload : List UInt8
  deriving DecidableEq, Repr

def maxFramePayload : ℕ := 2 ^ 20

def readUInt32BE : List UInt8 → ℕ
  | a :: b :: c :: d :: _ => ((a.toNat * 256 + b.toNat) * 256 + c.toNat) * 256 + d.toNat
  | _ => 0

/-- The four bytes of a length below 2^32. -/
def uint32BE (n : ℕ) : List UInt8 :=
  [UInt8.ofNat (n / 2 ^ 24), UInt8.ofNat (n / 2 ^ 16), UInt8.ofNat (n / 2 ^ 8), UInt8.ofNat n]

/-- `none` where `writeUInt32BE` throws. -/
def encodeFrame (f : Frame) : Option (List UInt8) :=
  let totalLen := f.payload.length + 1
  if totalLen < 2 ^ 32 then some (uint32BE totalLen ++ f.type :: f.payload) else none

/-- The bytes `WriteFrame` puts on the wire, `none` for its error. -/
def writeFrame (f : Frame) : Option (List UInt8) :=
  if f.payload.length + 1 > 2 ^ 32 - 1 then none
  else
    some (uint32BE (f.payload.length + 1) ++ [f.type] ++
      if f.payload.length > 0 then f.payload else [])

/-- The images of the frames, one after another. -/
def encodeFrames (fs : List Frame) : Option (List UInt8) := (fs.mapM encodeFrame).map List.flatten

inductive LengthError
  | zeroLength
  | exceedsMax (payload : ℕ)
  deriving DecidableEq, Repr

/-- What `FrameReader.consume` yields, the error it then throws, and the buffer it leaves. -/
def consume (buf : List UInt8) : List Frame × Option LengthError × List UInt8 :=
  if buf.length < 4 then ([], none, buf)
  else
    let totalLen := readUInt32BE buf
    if totalLen = 0 then ([], some .zeroLength, buf)
    else if totalLen - 1 > maxFramePayload then ([], some (.exceedsMax (totalLen - 1)), buf)
    else if buf.length < 4 + totalLen then ([], none, buf)
    else
      let out : Frame := ⟨buf.getD 4 0, (buf.take (4 + totalLen)).drop 5⟩
      let (fs, e, left) := consume (buf.drop (4 + totalLen))
      (out :: fs, e, left)
termination_by buf.length
decreasing_by
  rw [List.length_drop]
  omega

def push (buf chunk : List UInt8) : List UInt8 := if buf.length = 0 then chunk else buf ++ chunk

/-- Push each chunk and drain the reader after it; the first error ends the connection. -/
def readChunks (chunks : List (List UInt8)) : List Frame × Option LengthError :=
  feed (fun buf chunk => consume (push buf chunk)) [] chunks

inductive ReadError
  | eof
  | unexpectedEOF
  | length (error : LengthError)
  deriving DecidableEq, Repr

/-- `io.ReadFull` on what the connection still delivers. -/
def readFull (n : ℕ) (r : List UInt8) : Except ReadError (List UInt8 × List UInt8) :=
  if n ≤ r.length then .ok (r.take n, r.drop n)
  else if r.length = 0 then .error .eof
  else .error .unexpectedEOF

def readFrame (r : List UInt8) : Except ReadError (Frame × List UInt8) :=
  match readFull 4 r with
  | .error e => .error e
  | .ok (lenBuf, r) =>
    let totalLen := readUInt32BE lenBuf
    if totalLen = 0 then .error (.length .zeroLength)
    else if totalLen - 1 > maxFramePayload then .error (.length (.exceedsMax (totalLen - 1)))
    else
      match readFull totalLen r with
      | .error e => .error e
      | .ok (buf, r) => .ok (⟨buf.getD 0 0, buf.drop 1⟩, r)

theorem readFull_ok {n : ℕ} {r a rest : List UInt8} (h : readFull n r = .ok (a, rest)) :
    n ≤ r.length ∧ a = r.take n ∧ rest = r.drop n := by
  unfold readFull at h
  split_ifs at h with hn hr
  cases h
  exact ⟨hn, rfl, rfl⟩

theorem readFrame_shrinks {r rest : List UInt8} {f : Frame} (h : readFrame r = .ok (f, rest)) :
    rest.length < r.length := by
  unfold readFrame at h
  split at h
  · cases h
  · next lenBuf r' hlen =>
    simp only at h
    split_ifs at h
    split at h
    · cases h
    · next buf r'' hbuf =>
      obtain ⟨h4, -, rfl⟩ := readFull_ok hlen
      obtain ⟨-, -, rfl⟩ := readFull_ok hbuf
      cases h
      simp only [List.length_drop]
      omega

/-- The frames a connection's read loop sees, and the error that ends it. -/
def readFrames (r : List UInt8) : List Frame × ReadError :=
  match _h : readFrame r with
  | .error e => ([], e)
  | .ok (f, rest) => (f :: (readFrames rest).1, (readFrames rest).2)
termination_by r.length
decreasing_by all_goals exact readFrame_shrinks _h

inductive WholeError
  | partialFrame
  | badFrameLength
  deriving DecidableEq, Repr

/-- The frames `wholeFrames` yields from the rest of a message, and the error it then throws. -/
def wholeFrames (msg : List UInt8) : List Frame × Option WholeError :=
  if msg.length = 0 then ([], none)
  else if msg.length < 4 then ([], some .partialFrame)
  else
    let totalLen := readUInt32BE msg
    if totalLen = 0 ∨ totalLen - 1 > maxFramePayload then ([], some .badFrameLength)
    else if msg.length < 4 + totalLen then ([], some .partialFrame)
    else
      let out : Frame := ⟨msg.getD 4 0, (msg.take (4 + totalLen)).drop 5⟩
      let (fs, e) := wholeFrames (msg.drop (4 + totalLen))
      (out :: fs, e)
termination_by msg.length
decreasing_by
  rw [List.length_drop]
  omega

/-- The frame at the front of a buffer. -/
def frameHead (buf : List UInt8) : Head UInt8 Frame LengthError :=
  let totalLen := readUInt32BE buf
  if buf.length < 4 then .more
  else if totalLen = 0 then .bad .zeroLength
  else if totalLen - 1 > maxFramePayload then .bad (.exceedsMax (totalLen - 1))
  else if buf.length < 4 + totalLen then .more
  else .item ⟨buf.getD 4 0, (buf.take (4 + totalLen)).drop 5⟩ (buf.drop (4 + totalLen))

theorem readUInt32BE_append {a : List UInt8} (h : 4 ≤ a.length) (b : List UInt8) :
    readUInt32BE (a ++ b) = readUInt32BE a := by
  match a, h with
  | _ :: _ :: _ :: _ :: _, _ => rfl

theorem frameHead_eq_item {buf rest : List UInt8} {f : Frame} (h : frameHead buf = .item f rest) :
    4 ≤ buf.length ∧ readUInt32BE buf ≠ 0 ∧ readUInt32BE buf - 1 ≤ maxFramePayload ∧
      4 + readUInt32BE buf ≤ buf.length ∧
      f = ⟨buf.getD 4 0, (buf.take (4 + readUInt32BE buf)).drop 5⟩ ∧
      rest = buf.drop (4 + readUInt32BE buf) := by
  unfold frameHead at h
  simp only at h
  split_ifs at h with h4 h0 hmax hlen
  cases h
  exact ⟨by omega, h0, by omega, by omega, rfl, rfl⟩

theorem frameHead_eq_bad {buf : List UInt8} {e : LengthError} (h : frameHead buf = .bad e) :
    4 ≤ buf.length ∧ (readUInt32BE buf = 0 ∧ e = .zeroLength ∨
      readUInt32BE buf ≠ 0 ∧ maxFramePayload < readUInt32BE buf - 1 ∧
        e = .exceedsMax (readUInt32BE buf - 1)) := by
  unfold frameHead at h
  simp only at h
  split_ifs at h with h4 h0 hmax hlen
  · cases h
    exact ⟨by omega, .inl ⟨h0, rfl⟩⟩
  · cases h
    exact ⟨by omega, .inr ⟨h0, hmax, rfl⟩⟩

theorem frameHead_eq_more {buf : List UInt8} (h : frameHead buf = .more) :
    buf.length < 4 ∨ 4 ≤ buf.length ∧ readUInt32BE buf ≠ 0 ∧
      readUInt32BE buf - 1 ≤ maxFramePayload ∧ buf.length < 4 + readUInt32BE buf := by
  unfold frameHead at h
  simp only at h
  split_ifs at h with h4 h0 hmax hlen
  · exact .inl h4
  · exact .inr ⟨by omega, h0, by omega, hlen⟩

theorem frameHead_stable : Stable frameHead where
  bad xs e ys h := by
    obtain ⟨h4, hcases⟩ := frameHead_eq_bad h
    unfold frameHead
    simp only [readUInt32BE_append h4, List.length_append]
    rw [if_neg (by omega)]
    rcases hcases with ⟨h0, rfl⟩ | ⟨h0, hmax, rfl⟩
    · rw [if_pos h0]
    · rw [if_neg h0, if_pos hmax]
  item xs f rest ys h := by
    obtain ⟨h4, h0, hmax, hlen, rfl, rfl⟩ := frameHead_eq_item h
    have htype : (xs ++ ys).getD 4 0 = xs.getD 4 0 := by
      rw [List.getD_eq_getElem?_getD, List.getD_eq_getElem?_getD,
        List.getElem?_append_left (by omega)]
    unfold frameHead
    simp only [readUInt32BE_append h4, List.length_append]
    rw [if_neg (by omega), if_neg h0, if_neg (by omega), if_neg (by omega),
      List.take_append_of_le_length hlen, List.drop_append_of_le_length hlen, htype]

theorem frameHead_shrinks (buf : List UInt8) (f : Frame) (rest : List UInt8)
    (h : frameHead buf = .item f rest) : rest.length < buf.length := by
  obtain ⟨h4, h0, -, hlen, -, rfl⟩ := frameHead_eq_item h
  rw [List.length_drop]
  omega

theorem consume_eq (buf : List UInt8) :
    consume buf =
      match frameHead buf with
      | .more => ([], none, buf)
      | .bad e => ([], some e, buf)
      | .item f rest => (f :: (consume rest).1, (consume rest).2) := by
  rw [consume]
  unfold frameHead
  simp only
  split_ifs <;> rfl

theorem consume_of_reads {buf left : List UInt8} {fs : List Frame} {e : Option LengthError}
    (h : Reads frameHead buf fs e left) : consume buf = (fs, e, left) := by
  induction h with
  | more hm => rw [consume_eq, hm]
  | bad hb => rw [consume_eq, hb]
  | item hi _ ih =>
    rw [consume_eq, hi]
    simp only [ih]

theorem consume_reads (buf : List UInt8) :
    Reads frameHead buf (consume buf).1 (consume buf).2.1 (consume buf).2.2 := by
  obtain ⟨fs, e, left, h⟩ := PrefixDecoder.Reads.total frameHead_shrinks buf
  rw [consume_of_reads h]
  exact h

theorem push_eq (buf chunk : List UInt8) : push buf chunk = buf ++ chunk := by
  unfold push
  split_ifs with h
  · rw [List.length_eq_zero_iff.mp h, List.nil_append]
  · rfl

theorem readFull_of_le {n : ℕ} {r : List UInt8} (h : n ≤ r.length) :
    readFull n r = .ok (r.take n, r.drop n) := if_pos h

/-- Where bytes are missing, `io.ReadFull` says EOF if it got none at all. -/
theorem readFull_of_lt {n : ℕ} {r : List UInt8} (h : r.length < n) :
    readFull n r = .error (if r.length = 0 then .eof else .unexpectedEOF) := by
  rw [readFull, if_neg (by omega)]
  split_ifs <;> rfl

theorem readUInt32BE_take (r : List UInt8) : readUInt32BE (r.take 4) = readUInt32BE r := by
  rcases r with _ | ⟨a, _ | ⟨b, _ | ⟨c, _ | ⟨d, r⟩⟩⟩⟩ <;> rfl

theorem readFrame_of_bad {r : List UInt8} {e : LengthError} (h : frameHead r = .bad e) :
    readFrame r = .error (.length e) := by
  obtain ⟨h4, hcases⟩ := frameHead_eq_bad h
  unfold readFrame
  rw [readFull_of_le h4]
  simp only [readUInt32BE_take]
  rcases hcases with ⟨h0, rfl⟩ | ⟨h0, hmax, rfl⟩
  · rw [if_pos h0]
  · rw [if_neg h0, if_pos hmax]

theorem readFrame_of_item {r rest : List UInt8} {f : Frame} (h : frameHead r = .item f rest) :
    readFrame r = .ok (f, rest) := by
  obtain ⟨h4, h0, hmax, hlen, rfl, rfl⟩ := frameHead_eq_item h
  have hrest : readUInt32BE r ≤ (r.drop 4).length := by
    rw [List.length_drop]
    omega
  unfold readFrame
  rw [readFull_of_le h4]
  simp only [readUInt32BE_take]
  rw [if_neg h0, if_neg (by omega), readFull_of_le hrest]
  have htype : ((r.drop 4).take (readUInt32BE r)).getD 0 0 = r.getD 4 0 := by
    rw [List.getD_eq_getElem?_getD, List.getD_eq_getElem?_getD,
      List.getElem?_take_of_lt (Nat.pos_of_ne_zero h0), List.getElem?_drop]
  have hpayload : ((r.drop 4).take (readUInt32BE r)).drop 1 =
      (r.take (4 + readUInt32BE r)).drop 5 := by
    rw [List.drop_take, List.drop_take, List.drop_drop]
    congr 1
    omega
  simp only [htype, hpayload, List.drop_drop]

/-- The error of a stream that ends inside a frame, or before one. -/
def cutOff (left : List UInt8) : ReadError :=
  if left.length = 0 ∨ left.length = 4 then .eof else .unexpectedEOF

theorem readFrame_of_more {r : List UInt8} (h : frameHead r = .more) :
    readFrame r = .error (cutOff r) := by
  unfold readFrame cutOff
  rcases frameHead_eq_more h with h4 | ⟨h4, h0, hmax, hlen⟩
  · rw [readFull_of_lt h4]
    simp only
    congr 2
    simp only [eq_iff_iff]
    omega
  · have hrest : (r.drop 4).length < readUInt32BE r := by
      rw [List.length_drop]
      omega
    rw [readFull_of_le h4]
    simp only [readUInt32BE_take]
    rw [if_neg h0, if_neg (by omega), readFull_of_lt hrest]
    simp only [List.length_drop]
    congr 2
    simp only [eq_iff_iff]
    omega

theorem readFrames_eq (r : List UInt8) :
    readFrames r =
      match readFrame r with
      | .error e => ([], e)
      | .ok (f, rest) => (f :: (readFrames rest).1, (readFrames rest).2) := by
  rw [readFrames]
  split <;> rename_i h <;> rw [h]

theorem readFrames_of_reads {r left : List UInt8} {fs : List Frame} {e : Option LengthError}
    (h : Reads frameHead r fs e left) :
    readFrames r = (fs, (e.map ReadError.length).getD (cutOff left)) := by
  induction h with
  | more hm => rw [readFrames_eq, readFrame_of_more hm]; rfl
  | bad hb => rw [readFrames_eq, readFrame_of_bad hb]; rfl
  | item hi _ ih =>
    rw [readFrames_eq, readFrame_of_item hi]
    simp only [ih]

theorem wholeFrames_eq (msg : List UInt8) :
    wholeFrames msg =
      match frameHead msg with
      | .more => ([], if msg.length = 0 then none else some .partialFrame)
      | .bad _ => ([], some .badFrameLength)
      | .item f rest => (f :: (wholeFrames rest).1, (wholeFrames rest).2) := by
  rw [wholeFrames]
  unfold frameHead
  simp only
  split_ifs <;> first | rfl | omega

theorem wholeFrames_of_reads {msg left : List UInt8} {fs : List Frame} {e : Option LengthError}
    (h : Reads frameHead msg fs e left) :
    wholeFrames msg =
      (fs, if e.isSome then some .badFrameLength
        else if left.length = 0 then none else some .partialFrame) := by
  induction h with
  | more hm => rw [wholeFrames_eq, hm]; rfl
  | bad hb => rw [wholeFrames_eq, hb]; rfl
  | item hi _ ih =>
    rw [wholeFrames_eq, hi]
    simp only [ih]

theorem readChunks_of_reads {chunks : List (List UInt8)} {left : List UInt8} {fs : List Frame}
    {e : Option LengthError} (h : Reads frameHead chunks.flatten fs e left) :
    readChunks chunks = (fs, e) := by
  have hread : ∀ buf chunk, Reads frameHead (buf ++ chunk) (consume (push buf chunk)).1
      (consume (push buf chunk)).2.1 (consume (push buf chunk)).2.2 := by
    intro buf chunk
    rw [push_eq]
    exact consume_reads _
  obtain ⟨last, hfeed⟩ := feed_reads frameHead_stable hread chunks [] (.more rfl)
  obtain ⟨hfs, he, -⟩ := hfeed.unique h
  exact Prod.ext hfs he

theorem readUInt32BE_uint32BE {n : ℕ} (h : n < 2 ^ 32) (b : List UInt8) :
    readUInt32BE (uint32BE n ++ b) = n := by
  simp only [uint32BE, List.cons_append, readUInt32BE, UInt8.toNat_ofNat']
  omega

theorem uint32BE_readUInt32BE {b : List UInt8} (h : 4 ≤ b.length) :
    uint32BE (readUInt32BE b) = b.take 4 := by
  match b, h with
  | x :: y :: z :: w :: _, _ =>
    have hx := x.toNat_lt
    have hy := y.toNat_lt
    have hz := z.toNat_lt
    have hw := w.toNat_lt
    simp only [uint32BE, readUInt32BE, List.take_succ_cons, List.take_zero, List.cons.injEq,
      and_true]
    refine ⟨?_, ?_, ?_, ?_⟩ <;> apply UInt8.toNat_inj.mp <;> rw [UInt8.toNat_ofNat'] <;> omega

@[simp]
theorem uint32BE_length (n : ℕ) : (uint32BE n).length = 4 := rfl

def Frame.Valid (f : Frame) : Prop := f.payload.length ≤ maxFramePayload

instance (f : Frame) : Decidable f.Valid := inferInstanceAs (Decidable (_ ≤ _))

theorem Frame.Valid.encode {f : Frame} (h : f.Valid) :
    encodeFrame f = some (uint32BE (f.payload.length + 1) ++ f.type :: f.payload) := by
  have : f.payload.length ≤ 2 ^ 20 := h
  exact if_pos (by omega)

theorem frameHead_encode {f : Frame} (h : f.Valid) (rest : List UInt8) :
    frameHead (uint32BE (f.payload.length + 1) ++ f.type :: f.payload ++ rest) = .item f rest := by
  have hlen : f.payload.length ≤ 2 ^ 20 := h
  have hread := readUInt32BE_uint32BE (show f.payload.length + 1 < 2 ^ 32 by omega)
    (f.type :: f.payload ++ rest)
  have hmax : ¬f.payload.length + 1 - 1 > maxFramePayload := not_lt.mpr h
  unfold frameHead
  rw [List.append_assoc, hread]
  simp only [List.length_append, uint32BE_length, List.length_cons]
  rw [if_neg (by omega), if_neg (by omega), if_neg hmax, if_neg (by omega)]
  have hfive : 4 + (f.payload.length + 1) = f.payload.length + 5 := by omega
  rw [hfive]
  simp [uint32BE]

/-- A frame is accepted only in the form `encodeFrame` gives it. -/
theorem frameHead_item_encode {buf rest : List UInt8} {f : Frame}
    (h : frameHead buf = .item f rest) :
    f.Valid ∧ buf = uint32BE (f.payload.length + 1) ++ f.type :: f.payload ++ rest := by
  obtain ⟨h4, h0, hmax, hlen, rfl, rfl⟩ := frameHead_eq_item h
  generalize hn : readUInt32BE buf = n at h0 hmax hlen ⊢
  have hpayload : ((buf.take (4 + n)).drop 5).length = n - 1 := by
    rw [List.length_drop, List.length_take]
    omega
  refine ⟨hpayload.trans_le hmax, ?_⟩
  have hone : n - 1 + 1 = n := by omega
  simp only [hpayload, hone]
  calc
    buf = buf.take 4 ++ buf.drop 4 := (List.take_append_drop 4 buf).symm
    _ = uint32BE n ++ buf.drop 4 := by rw [← uint32BE_readUInt32BE h4, hn]
    _ = uint32BE n ++ buf.getD 4 0 :: buf.drop 5 := by
      rw [List.drop_eq_getElem_cons (by omega : 4 < buf.length), List.getD_eq_getElem?_getD,
        List.getElem?_eq_getElem (by omega), Option.getD_some]
    _ = uint32BE n ++ buf.getD 4 0 :: ((buf.take (4 + n)).drop 5 ++ buf.drop (4 + n)) := by
      congr 2
      have hsplit := List.take_append_drop (n - 1) (buf.drop 5)
      rw [List.drop_drop] at hsplit
      rw [List.drop_take]
      have hfour : 4 + n - 5 = n - 1 := by omega
      have hfive : 5 + (n - 1) = 4 + n := by omega
      rw [hfour, ← hfive]
      exact hsplit.symm
    _ = _ := by rw [List.append_assoc, List.cons_append]

theorem encodeFrames_cons {f : Frame} (h : f.Valid) (fs : List Frame) :
    encodeFrames (f :: fs) = (encodeFrames fs).map
      (uint32BE (f.payload.length + 1) ++ f.type :: f.payload ++ ·) := by
  unfold encodeFrames
  rw [List.mapM_cons, h.encode]
  cases fs.mapM encodeFrame <;> simp

theorem reads_encodeFrames {fs : List Frame} (h : ∀ f ∈ fs, f.Valid) :
    ∃ bytes, encodeFrames fs = some bytes ∧
      ∀ tail gs e left, Reads frameHead tail gs e left →
        Reads frameHead (bytes ++ tail) (fs ++ gs) e left := by
  induction fs with
  | nil => exact ⟨[], rfl, fun _ _ _ _ h => h⟩
  | cons f fs ih =>
    have hf := h f List.mem_cons_self
    obtain ⟨bytes, hbytes, hreads⟩ := ih fun g hg => h g (List.mem_cons_of_mem f hg)
    refine ⟨uint32BE (f.payload.length + 1) ++ f.type :: f.payload ++ bytes, ?_, ?_⟩
    · rw [encodeFrames_cons hf, hbytes, Option.map_some]
    · intro tail gs e left htail
      have hitem := frameHead_encode hf (bytes ++ tail)
      rw [← List.append_assoc] at hitem
      exact .item hitem (hreads tail gs e left htail)

theorem encodeFrames_of_reads {msg left : List UInt8} {fs : List Frame} {e : Option LengthError}
    (h : Reads frameHead msg fs e left) :
    (∀ f ∈ fs, f.Valid) ∧ (encodeFrames fs).map (· ++ left) = some msg := by
  induction h with
  | more _ => exact ⟨by simp, rfl⟩
  | bad _ => exact ⟨by simp, rfl⟩
  | item hi _ ih =>
    obtain ⟨hf, rfl⟩ := frameHead_item_encode hi
    obtain ⟨hfs, henc⟩ := ih
    refine ⟨List.forall_mem_cons.mpr ⟨hf, hfs⟩, ?_⟩
    obtain ⟨bytes, hbytes, rfl⟩ := Option.map_eq_some_iff.mp henc
    rw [encodeFrames_cons hf, hbytes, Option.map_some, Option.map_some, List.append_assoc]

theorem writeFrame_eq_encodeFrame (f : Frame) : writeFrame f = encodeFrame f := by
  have hpayload : (if f.payload.length > 0 then f.payload else []) = f.payload := by
    split_ifs with h
    · rfl
    · exact (List.length_eq_zero_iff.mp (Nat.eq_zero_of_not_pos h)).symm
  unfold writeFrame encodeFrame
  rw [hpayload]
  simp only [List.append_assoc, List.singleton_append]
  split_ifs <;> first | rfl | omega

/-- A length field no frame has. -/
def lengthError (n : ℕ) : Option LengthError :=
  if n = 0 then some .zeroLength
  else if n - 1 > maxFramePayload then some (.exceedsMax (n - 1))
  else none

theorem reads_lengthError {n : ℕ} {e : LengthError} (hn : n < 2 ^ 32) (h : lengthError n = some e)
    (tail : List UInt8) :
    Reads frameHead (uint32BE n ++ tail) [] (some e) (uint32BE n ++ tail) := by
  apply Reads.bad
  unfold lengthError at h
  unfold frameHead
  simp only [readUInt32BE_uint32BE hn, List.length_append, uint32BE_length]
  rw [if_neg (by omega)]
  split_ifs at h ⊢ <;> cases h <;> rfl

theorem wholeFrames_eq_none_iff (msg : List UInt8) :
    (wholeFrames msg).2 = none ↔ ∃ fs, (∀ f ∈ fs, f.Valid) ∧ encodeFrames fs = some msg := by
  constructor
  · intro h
    obtain ⟨fs, e, left, hr⟩ := Reads.total frameHead_shrinks msg
    rw [wholeFrames_of_reads hr] at h
    obtain ⟨hfs, henc⟩ := encodeFrames_of_reads hr
    simp only at h
    split_ifs at h with he hleft
    rw [List.length_eq_zero_iff.mp hleft] at henc
    simp only [List.append_nil, Option.map_id'] at henc
    exact ⟨fs, hfs, henc⟩
  · rintro ⟨fs, hfs, henc⟩
    obtain ⟨bytes, hbytes, hreads⟩ := reads_encodeFrames hfs
    cases hbytes.symm.trans henc
    have hr := hreads [] [] none [] (.more rfl)
    rw [List.append_nil] at hr
    rw [wholeFrames_of_reads hr]
    rfl

/-- The frame codec: what was encoded is read back by all three readers, however the bytes are
cut; `wholeFrames` accepts exactly the encodings; and on any bytes the three read the same
frames up to the same bad length. -/
theorem readers_agree (fs : List Frame) (hfs : ∀ f ∈ fs, f.payload.length ≤ maxFramePayload) :
    (∃ bytes, encodeFrames fs = some bytes ∧
      (∀ chunks : List (List UInt8), chunks.flatten = bytes → readChunks chunks = (fs, none)) ∧
      readFrames bytes = (fs, .eof) ∧ wholeFrames bytes = (fs, none) ∧
      ∀ n e tail, n < 2 ^ 32 → lengthError n = some e →
        (∀ chunks : List (List UInt8), chunks.flatten = bytes ++ (uint32BE n ++ tail) →
          readChunks chunks = (fs, some e)) ∧
        readFrames (bytes ++ (uint32BE n ++ tail)) = (fs, .length e) ∧
        wholeFrames (bytes ++ (uint32BE n ++ tail)) = (fs, some .badFrameLength)) ∧
    (∀ msg, (wholeFrames msg).2 = none ↔
      ∃ gs, (∀ f ∈ gs, f.payload.length ≤ maxFramePayload) ∧ encodeFrames gs = some msg) ∧
    ∀ chunks : List (List UInt8),
      (readChunks chunks).1 = (readFrames chunks.flatten).1 ∧
      (readChunks chunks).1 = (wholeFrames chunks.flatten).1 ∧
      (∀ e, (readChunks chunks).2 = some e ↔ (readFrames chunks.flatten).2 = .length e) ∧
      ((readChunks chunks).2.isSome ↔
        (wholeFrames chunks.flatten).2 = some .badFrameLength) := by
  refine ⟨?_, wholeFrames_eq_none_iff, ?_⟩
  · obtain ⟨bytes, hbytes, hreads⟩ := reads_encodeFrames hfs
    have hall := hreads [] [] none [] (.more rfl)
    rw [List.append_nil, List.append_nil] at hall
    refine ⟨bytes, hbytes, ?_, ?_, ?_, ?_⟩
    · rintro chunks rfl
      exact readChunks_of_reads hall
    · rw [readFrames_of_reads hall]
      rfl
    · rw [wholeFrames_of_reads hall]
      rfl
    · intro n e tail hn he
      have hbad := hreads _ _ _ _ (reads_lengthError hn he tail)
      rw [List.append_nil] at hbad
      refine ⟨?_, ?_, ?_⟩
      · intro chunks hchunks
        rw [← hchunks] at hbad
        exact readChunks_of_reads hbad
      · rw [readFrames_of_reads hbad]
        rfl
      · rw [wholeFrames_of_reads hbad]
        rfl
  · intro chunks
    obtain ⟨gs, e, left, hr⟩ := Reads.total frameHead_shrinks chunks.flatten
    rw [readChunks_of_reads hr, readFrames_of_reads hr, wholeFrames_of_reads hr]
    refine ⟨rfl, rfl, ?_, ?_⟩
    · intro e'
      cases e with
      | none =>
        have hcut : ∀ e', cutOff left ≠ .length e' := by
          intro e'
          unfold cutOff
          split_ifs <;> exact nofun
        simp [hcut]
      | some e => simp
    · cases e with
      | none => by_cases hleft : left.length = 0 <;> simp [hleft]
      | some e => simp

theorem readers_agree_two_frames :
    readChunks [[0, 0, 0], [3, 0x10, 104], [105, 0, 0, 0, 1, 0x0a]] =
      ([⟨0x10, [104, 105]⟩, ⟨0x0a, []⟩], none) := by
  obtain ⟨⟨bytes, hbytes, hchunks, -⟩, -⟩ :=
    readers_agree [⟨0x10, [104, 105]⟩, ⟨0x0a, []⟩] (by decide)
  cases hbytes
  exact hchunks _ rfl

end ClaudeFleet.FrameCodec
