import ClaudeFleet.ReplayBuffer
import Mathlib.Data.List.Rotate
import Mathlib.Data.List.DropRight

/-! The broker's byte ring against the hub's chunk list: two buffers that keep the last bytes
of a stream. -/
namespace ClaudeFleet.RingBuffer
open ReplayBuffer

/-- `start` is the index of the oldest byte, `size` the number of valid ones. -/
structure Ring where
  buf : List UInt8
  start : ℕ
  size : ℕ
  wrapped : Bool
  start_lt : start < buf.length
  size_le : size ≤ buf.length

def newRingBuffer (cap : ℤ) : Ring where
  buf := List.replicate (if cap ≤ 0 then 1 else cap.toNat) 0
  start := 0
  size := 0
  wrapped := false
  start_lt := by
    rw [List.length_replicate]
    split_ifs <;> omega
  size_le := Nat.zero_le _

/-- One turn of the loop in `Write`. -/
def writeByte (r : Ring) (x : UInt8) : Ring where
  buf := r.buf.set ((r.start + r.size) % r.buf.length) x
  start := if r.size < r.buf.length then r.start else (r.start + 1) % r.buf.length
  size := if r.size < r.buf.length then r.size + 1 else r.size
  wrapped := if r.size < r.buf.length then r.wrapped else true
  start_lt := by
    have := r.start_lt
    rw [List.length_set]
    split_ifs
    · exact this
    · exact Nat.mod_lt _ (by omega)
  size_le := by
    have := r.size_le
    rw [List.length_set]
    split_ifs <;> omega

def write (r : Ring) (b : List UInt8) : Ring :=
  if h : r.buf.length ≤ b.length then
    { buf := b.drop (b.length - r.buf.length)
      start := 0
      size := r.buf.length
      wrapped := true
      start_lt := by
        have := r.start_lt
        rw [List.length_drop]
        omega
      size_le := by
        rw [List.length_drop]
        omega }
  else b.foldl writeByte r

def Ring.snapshot (r : Ring) : List UInt8 :=
  if r.start + r.size ≤ r.buf.length then (r.buf.drop r.start).take r.size
  else r.buf.drop r.start ++ r.buf.take (r.start + r.size - r.buf.length)

def replaySnapshot (r : Ring) : List UInt8 :=
  if r.wrapped then trimToSafeStart r.snapshot else r.snapshot

theorem snapshot_eq_rotate (r : Ring) : r.snapshot = (r.buf.rotate r.start).take r.size := by
  have hs := r.start_lt
  have hn := r.size_le
  rw [List.rotate_eq_drop_append_take hs.le, List.take_append]
  unfold Ring.snapshot
  split_ifs with h
  · have hzero : r.size - (r.buf.drop r.start).length = 0 := by
      rw [List.length_drop]
      omega
    rw [hzero, List.take_zero, List.append_nil]
  · have hall : (r.buf.drop r.start).length ≤ r.size := by
      rw [List.length_drop]
      omega
    have hmin : min (r.size - (r.buf.drop r.start).length) r.start =
        r.start + r.size - r.buf.length := by
      rw [List.length_drop]
      omega
    rw [List.take_of_length_le hall, List.take_take, hmin]

theorem snapshot_length (r : Ring) : r.snapshot.length = r.size := by
  have := r.size_le
  rw [snapshot_eq_rotate, List.length_take, List.length_rotate]
  omega

/-- The byte `k` places after the oldest one. -/
theorem snapshot_getElem? (r : Ring) {k : ℕ} (hk : k < r.size) :
    r.snapshot[k]? = r.buf[(k + r.start) % r.buf.length]? := by
  have := r.size_le
  rw [snapshot_eq_rotate, List.getElem?_take_of_lt hk, List.getElem?_rotate (by omega)]

theorem rtake_append_rtake (c : ℕ) (s t : List UInt8) :
    (s.rtake c ++ t).rtake c = (s ++ t).rtake c := by
  simp only [List.rtake, List.length_append, List.length_drop, List.drop_append, List.drop_drop]
  congr 1
  · congr 1
    omega
  · congr 1
    omega

theorem rtake_of_length_le {c : ℕ} {s : List UInt8} (h : s.length ≤ c) : s.rtake c = s := by
  rw [List.rtake, Nat.sub_eq_zero_of_le h, List.drop_zero]

theorem rtake_append_of_le {c : ℕ} {t : List UInt8} (h : c ≤ t.length) (s : List UInt8) :
    (s ++ t).rtake c = t.rtake c := by
  have hs : s.drop (s.length + t.length - c) = [] := List.drop_of_length_le (by omega)
  rw [List.rtake, List.rtake, List.length_append, List.drop_append, hs, List.nil_append]
  congr 1
  omega

theorem length_rtake (c : ℕ) (s : List UInt8) : (s.rtake c).length = min c s.length := by
  rw [List.rtake, List.length_drop]
  omega

theorem index_eq {k start n : ℕ} (hs : start < n) (hk : k ≤ n) :
    (k + start) % n = if k + start < n then k + start else k + start - n := by
  split_ifs with h
  · exact Nat.mod_eq_of_lt h
  · rw [Nat.mod_eq_sub_mod (not_lt.mp h)]
    exact Nat.mod_eq_of_lt (by omega)

/-- Distinct places before one full turn are distinct slots. -/
theorem index_ne {a b start n : ℕ} (hs : start < n) (hb : b ≤ n) (hab : a < b) (ha : b < a + n) :
    (b + start) % n ≠ (a + start) % n := by
  rw [index_eq hs hb, index_eq hs (hab.le.trans hb)]
  split_ifs <;> omega

/-- A byte lands in the slot after the last one; when the ring is full, in the oldest one's. -/
theorem writeByte_getElem? (r : Ring) (x : UInt8) {k : ℕ} (hk : k < (writeByte r x).size) :
    (writeByte r x).snapshot[k]? =
      if k + 1 = (writeByte r x).size then some x
      else r.snapshot[if r.size < r.buf.length then k else k + 1]? := by
  have hs := r.start_lt
  have hn := r.size_le
  have hslot : (r.size + r.start) % r.buf.length < r.buf.length := Nat.mod_lt _ (by omega)
  have hbuf : (writeByte r x).buf = r.buf.set ((r.size + r.start) % r.buf.length) x := by
    rw [Nat.add_comm]
    rfl
  rw [snapshot_getElem? _ hk, hbuf, List.length_set]
  by_cases hfull : r.size < r.buf.length
  · have hsize : (writeByte r x).size = r.size + 1 := if_pos hfull
    have hstart : (writeByte r x).start = r.start := if_pos hfull
    rw [hsize] at hk ⊢
    rw [hstart, if_pos hfull]
    rcases Nat.lt_succ_iff_lt_or_eq.mp hk with hlt | rfl
    · rw [List.getElem?_set_ne (index_ne hs hn hlt (by omega)), if_neg (by omega),
        snapshot_getElem? r hlt]
    · rw [List.getElem?_set_self hslot, if_pos rfl]
  · have hsize : (writeByte r x).size = r.size := if_neg hfull
    have hstart : (writeByte r x).start = (r.start + 1) % r.buf.length := if_neg hfull
    have hshift : (k + (r.start + 1) % r.buf.length) % r.buf.length =
        (k + 1 + r.start) % r.buf.length := by
      rw [Nat.add_mod_mod]
      congr 1
      omega
    rw [hsize] at hk ⊢
    rw [hstart, if_neg hfull, hshift]
    rcases Nat.lt_or_eq_of_le (Nat.succ_le_of_lt hk) with hlt | heq
    · rw [List.getElem?_set_ne (index_ne hs hn hlt (by omega)), if_neg (by omega),
        snapshot_getElem? r hlt]
    · rw [if_pos heq, ← heq, List.getElem?_set_self (heq ▸ hslot)]

theorem writeByte_snapshot (r : Ring) (x : UInt8) :
    (writeByte r x).snapshot = (r.snapshot ++ [x]).rtake r.buf.length := by
  have hn := r.size_le
  have hlen : (writeByte r x).size = min r.buf.length (r.size + 1) := by
    simp only [writeByte]
    split_ifs <;> omega
  apply List.ext_getElem?
  intro k
  by_cases hk : k < (writeByte r x).size
  · rw [writeByte_getElem? r x hk, List.rtake, List.getElem?_drop, List.length_append,
      snapshot_length, List.length_singleton]
    by_cases hlast : k + 1 = (writeByte r x).size
    · rw [if_pos hlast, List.getElem?_append_right (by rw [snapshot_length]; omega), snapshot_length]
      have hzero : r.size + 1 - r.buf.length + k - r.size = 0 := by omega
      rw [hzero]
      rfl
    · rw [if_neg hlast, List.getElem?_append_left (by rw [snapshot_length]; omega)]
      congr 1
      split_ifs <;> omega
  · rw [List.getElem?_eq_none (by rw [snapshot_length]; omega), List.getElem?_eq_none]
    rw [length_rtake, List.length_append, snapshot_length, List.length_singleton]
    omega

/-- The ring holds the last bytes of the stream `s`, and says so once bytes were overwritten. -/
structure Holds (c : ℕ) (s : List UInt8) (r : Ring) : Prop where
  capacity : r.buf.length = c
  contents : r.snapshot = s.rtake c
  evicted : c < s.length → r.wrapped = true

theorem newRingBuffer_holds {c : ℕ} (hc : 1 ≤ c) : Holds c [] (newRingBuffer c) := by
  refine ⟨?_, ?_, ?_⟩
  · rw [newRingBuffer, List.length_replicate, if_neg (by omega)]
    rfl
  · rw [List.rtake_nil, ← List.length_eq_zero_iff, snapshot_length]
    rfl
  · intro h
    simp at h

theorem Holds.size {c : ℕ} {s : List UInt8} {r : Ring} (h : Holds c s r) :
    r.size = min c s.length := by
  rw [← snapshot_length, h.contents, length_rtake]

theorem Holds.writeByte_wrapped {c : ℕ} {s : List UInt8} {r : Ring} (h : Holds c s r) (x : UInt8) :
    (writeByte r x).wrapped = (r.wrapped || decide (c < (s ++ [x]).length)) := by
  have hsize := h.size
  rw [List.length_append, List.length_singleton]
  simp only [writeByte, h.capacity]
  split_ifs with hfull
  · rw [decide_eq_false (by omega), Bool.or_false]
  · rw [decide_eq_true (by omega), Bool.or_true]

theorem Holds.writeByte {c : ℕ} {s : List UInt8} {r : Ring} (h : Holds c s r) (x : UInt8) :
    Holds c (s ++ [x]) (writeByte r x) := by
  refine ⟨?_, ?_, ?_⟩
  · rw [RingBuffer.writeByte, List.length_set, h.capacity]
  · rw [writeByte_snapshot, h.contents, h.capacity, rtake_append_rtake]
  · intro hlt
    rw [h.writeByte_wrapped, decide_eq_true hlt, Bool.or_true]

theorem Holds.bytes {c : ℕ} {s : List UInt8} {r : Ring} (h : Holds c s r) (b : List UInt8) :
    Holds c (s ++ b) (b.foldl RingBuffer.writeByte r) ∧
      (b.foldl RingBuffer.writeByte r).wrapped =
        (r.wrapped || decide (c < (s ++ b).length)) := by
  induction b generalizing s r with
  | nil =>
    rw [List.append_nil]
    refine ⟨h, ?_⟩
    by_cases hlt : c < s.length
    · rw [List.foldl_nil, h.evicted hlt, Bool.true_or]
    · rw [List.foldl_nil, decide_eq_false hlt, Bool.or_false]
  | cons x b ih =>
    obtain ⟨hholds, hwrapped⟩ := ih (h.writeByte x)
    rw [List.append_assoc, List.singleton_append] at hholds hwrapped
    refine ⟨hholds, ?_⟩
    rw [List.foldl_cons, hwrapped, h.writeByte_wrapped, Bool.or_assoc, ← Bool.decide_or]
    congr 2
    simp only [List.length_append, List.length_cons, List.length_nil, eq_iff_iff]
    omega

/-- A write of the ring's size or more sets the flag whatever the ring held before. -/
theorem Holds.write {c : ℕ} {s : List UInt8} {r : Ring} (h : Holds c s r) (b : List UInt8) :
    Holds c (s ++ b) (write r b) ∧
      (write r b).wrapped =
        (r.wrapped || decide (c ≤ b.length) || decide (c < (s ++ b).length)) := by
  have hcap := h.capacity
  unfold RingBuffer.write
  split_ifs with hle
  · refine ⟨⟨?_, ?_, fun _ => rfl⟩, ?_⟩
    · rw [List.length_drop]
      omega
    · have hall : (b.drop (b.length - c)).length = c := by
        rw [List.length_drop]
        omega
      rw [snapshot_eq_rotate, rtake_append_of_le (hcap ▸ hle), List.rtake]
      simp only [List.rotate_zero, hcap]
      exact List.take_of_length_le hall.le
    · rw [hcap] at hle
      rw [decide_eq_true hle, Bool.or_true, Bool.true_or]
  · rw [hcap] at hle
    rw [decide_eq_false hle, Bool.or_false]
    exact h.bytes b

theorem writes_hold {c : ℕ} (hc : 1 ≤ c) (ws : List (List UInt8)) :
    Holds c ws.flatten (ws.foldl write (newRingBuffer c)) ∧
      (ws.foldl write (newRingBuffer c)).wrapped =
        (ws.any (fun w => c ≤ w.length) || decide (c < ws.flatten.length)) := by
  induction ws using List.reverseRecOn with
  | nil => exact ⟨newRingBuffer_holds hc, by simp [newRingBuffer]⟩
  | append_singleton ws w ih =>
    obtain ⟨hholds, hwrapped⟩ := ih
    have hflat : (ws ++ [w]).flatten = ws.flatten ++ w := by simp
    rw [List.foldl_append, hflat]
    obtain ⟨hnext, hflag⟩ := hholds.write w
    refine ⟨hnext, ?_⟩
    rw [List.foldl_cons, List.foldl_nil, hflag, hwrapped, List.any_append]
    simp only [List.any_cons, List.any_nil, Bool.or_false, Bool.or_assoc]
    congr 1
    rw [Bool.or_left_comm, ← Bool.decide_or]
    congr 2
    simp only [List.length_append, eq_iff_iff]
    omega

theorem evict_flatten (cap : ℕ) (chunks : List (List UInt8)) (wrapped : Bool) :
    (evict cap chunks chunks.flatten.length wrapped).chunks.flatten = chunks.flatten.rtake cap ∧
      (evict cap chunks chunks.flatten.length wrapped).wrapped =
        (wrapped || decide (cap < chunks.flatten.length)) := by
  induction chunks generalizing wrapped with
  | nil => simp [evict]
  | cons head rest ih =>
    have hlen : (head :: rest).flatten.length = head.length + rest.flatten.length := by simp
    unfold evict
    split_ifs with hcap hhead
    · have hrest : (head :: rest).flatten.length - head.length = rest.flatten.length := by omega
      obtain ⟨hflat, hwrapped⟩ := ih true
      rw [hrest]
      refine ⟨?_, ?_⟩
      · rw [hflat, List.flatten_cons, rtake_append_of_le (by omega)]
      · rw [hwrapped, Bool.true_or, decide_eq_true hcap, Bool.or_true]
    · refine ⟨?_, ?_⟩
      · rw [List.flatten_cons, List.flatten_cons, List.rtake, List.length_append,
          List.drop_append_of_le_length (by omega)]
      · rw [decide_eq_true hcap, Bool.or_true]
    · refine ⟨(rtake_of_length_le (not_lt.mp hcap)).symm, ?_⟩
      rw [decide_eq_false hcap, Bool.or_false]

theorem appends_hold (c : ℕ) (ws : List (List UInt8)) :
    let r := ws.foldl (append c) {}
    r.size = r.chunks.flatten.length ∧ r.chunks.flatten = ws.flatten.rtake c ∧
      r.wrapped = decide (c < ws.flatten.length) := by
  induction ws using List.reverseRecOn with
  | nil => simp
  | append_singleton ws w ih =>
    obtain ⟨hsize, hflat, hwrapped⟩ := ih
    simp only [List.foldl_append, List.foldl_cons, List.foldl_nil]
    generalize ws.foldl (append c) {} = r at hsize hflat hwrapped ⊢
    have hlen : r.size + w.length = (r.chunks ++ [w]).flatten.length := by simp [hsize]
    have hchunks : (r.chunks ++ [w]).flatten = ws.flatten.rtake c ++ w := by simp [hflat]
    unfold append
    rw [hlen]
    refine ⟨(evict_sized c _ _).size, ?_, ?_⟩
    · rw [(evict_flatten c _ _).1, hchunks, rtake_append_rtake]
      simp
    · rw [(evict_flatten c _ _).2, hwrapped, hchunks, ← Bool.decide_or]
      congr 1
      simp only [List.length_append, length_rtake, List.flatten_append, List.flatten_cons,
        List.flatten_nil, List.append_nil, eq_iff_iff]
      omega

/-- What a replay of the stream `s` from a buffer of `c` bytes is meant to be. -/
def replayOf (c : ℕ) (s : List UInt8) : List UInt8 :=
  if s.length ≤ c then s else trimToSafeStart (s.rtake c)

/-- Bytes a terminal can be given as the start of a stream: nothing is trimmed. -/
def SafeStart (b : List UInt8) : Prop :=
  b.head? = some 0x1b ∨ 0x1b ∉ b ∧ 0x0a ∉ b ∧ ∀ x ∈ b.head?, x &&& 0xc0 ≠ 0x80

instance (b : List UInt8) : Decidable (SafeStart b) := by
  haveI : Decidable (∀ x ∈ b.head?, x &&& 0xc0 ≠ 0x80) :=
    Option.decidableForallMem _
  unfold SafeStart
  infer_instance

theorem findIdx?_eq_zero {b : List UInt8} {y : UInt8} :
    b.findIdx? (· = y) = some 0 ↔ b.head? = some y := by
  cases b with
  | nil => simp
  | cons x b => by_cases hx : x = y <;> simp [List.findIdx?_cons, hx]

theorem drop_eq_self {n : ℕ} {b : List UInt8} (hb : b ≠ []) : b.drop n = b ↔ n = 0 := by
  constructor
  · intro h
    have hlen := congrArg List.length h
    have hpos := List.length_pos_iff.mpr hb
    rw [List.length_drop] at hlen
    omega
  · rintro rfl
    exact List.drop_zero

theorem trimToSafeStart_eq_self {b : List UInt8} (hb : b ≠ []) :
    trimToSafeStart b = b ↔ SafeStart b := by
  have hhead : ∀ y n, b.findIdx? (· = y) = some n → (b.head? = some y ↔ n = 0) := by
    intro y n hn
    rw [← findIdx?_eq_zero, hn, Option.some.injEq]
  have hmem : ∀ y n, b.findIdx? (· = y) = some n → y ∈ b := by
    intro y n hn
    by_contra hy
    have : b.findIdx? (· = y) = none := by
      rw [List.findIdx?_eq_none_iff]
      intro x hx
      simp only [decide_eq_false_iff_not]
      rintro rfl
      exact hy hx
    rw [hn] at this
    cases this
  unfold trimToSafeStart SafeStart
  split
  · next hesc hnl =>
    rw [List.findIdx?_eq_none_iff] at hesc hnl
    have hesc' : (0x1b : UInt8) ∉ b := fun h => by simpa using hesc _ h
    have hnl' : (0x0a : UInt8) ∉ b := fun h => by simpa using hnl _ h
    cases b with
    | nil => exact absurd rfl hb
    | cons x b =>
      have hx : x ≠ 0x1b := fun h => hesc' (h ▸ List.mem_cons_self)
      simp only [List.dropWhile_eq_self_iff, hesc', hnl', List.head?_cons, Option.some.injEq, hx,
        not_false_iff, true_and, false_or, Option.mem_some_iff, List.length_cons]
      simp
  · next nl hesc hnl =>
    rw [List.findIdx?_eq_none_iff] at hesc
    have hesc' : b.head? ≠ some 0x1b := by
      intro h
      simpa using hesc _ (List.mem_of_mem_head? h)
    rw [drop_eq_self hb]
    simp [hesc', hmem _ _ hnl]
  · next esc hesc hnl =>
    rw [drop_eq_self hb, hhead _ _ hesc]
    simp [hmem _ _ hesc]
  · next esc nl hesc hnl =>
    rw [hhead _ _ hesc]
    split_ifs
    · rw [drop_eq_self hb]
      simp [hmem _ _ hesc]
    · rw [drop_eq_self hb]
      simp only [hmem _ _ hesc, not_true_eq_false, false_and, or_false]
      omega

/-- The broker's HISTORY body after a sequence of writes. -/
def brokerReplay (c : ℕ) (ws : List (List UInt8)) : List UInt8 :=
  replaySnapshot (ws.foldl write (newRingBuffer c))

/-- The hub's HISTORY body after the same sequence. -/
def hubReplay (c : ℕ) (ws : List (List UInt8)) : List UInt8 :=
  snapshot (ws.foldl (append c) {})

theorem hubReplay_eq (c : ℕ) (ws : List (List UInt8)) :
    hubReplay c ws = replayOf c ws.flatten := by
  obtain ⟨-, hflat, hwrapped⟩ := appends_hold c ws
  rw [hubReplay, snapshot, hwrapped, hflat, replayOf]
  by_cases h : c < ws.flatten.length
  · rw [decide_eq_true h, if_pos rfl, if_neg (not_le.mpr h)]
  · rw [decide_eq_false h, if_neg Bool.false_ne_true, if_pos (not_lt.mp h),
      rtake_of_length_le (not_lt.mp h)]

theorem brokerReplay_eq {c : ℕ} (hc : 1 ≤ c) (ws : List (List UInt8)) :
    brokerReplay c ws =
      if (∃ w ∈ ws, c ≤ w.length) ∧ ws.flatten.length ≤ c then trimToSafeStart ws.flatten
      else replayOf c ws.flatten := by
  obtain ⟨hholds, hwrapped⟩ := writes_hold hc ws
  rw [brokerReplay, replaySnapshot, hwrapped, hholds.contents, replayOf]
  by_cases h : c < ws.flatten.length
  · rw [decide_eq_true h, Bool.or_true, if_pos rfl, if_neg (fun hle => absurd hle.2 (not_le.mpr h)),
      if_neg (not_le.mpr h)]
  · rw [decide_eq_false h, Bool.or_false, rtake_of_length_le (not_lt.mp h), if_pos (not_lt.mp h)]
    by_cases hfull : ∃ w ∈ ws, c ≤ w.length
    · rw [if_pos (by simpa using hfull), if_pos ⟨hfull, not_lt.mp h⟩]
    · rw [if_neg (by simpa using hfull), if_neg (fun hle => hfull hle.1)]

theorem length_le_flatten {w : List UInt8} {ws : List (List UInt8)} (h : w ∈ ws) :
    w.length ≤ ws.flatten.length := by
  rw [List.length_flatten]
  exact List.le_sum_of_mem (List.mem_map_of_mem h)

/-- The two buffers replay the same bytes, those of the stream as a whole, except after a first
write of exactly the capacity: the ring then trims a stream it still holds completely. -/
theorem replay_buffers_agree_iff (c : ℕ) (hc : 1 ≤ c) (ws : List (List UInt8)) :
    (brokerReplay c ws = hubReplay c ws ∧ brokerReplay c ws = replayOf c ws.flatten ∧
      hubReplay c ws = replayOf c ws.flatten) ↔
      ((∃ w ∈ ws, w.length = c) → ws.flatten.length = c → SafeStart ws.flatten) := by
  rw [hubReplay_eq, brokerReplay_eq hc]
  constructor
  · rintro ⟨-, h, -⟩ ⟨w, hw, hwc⟩ hlen
    have hne : ws.flatten ≠ [] := by
      intro hnil
      rw [hnil, List.length_nil] at hlen
      omega
    rw [if_pos ⟨⟨w, hw, hwc.ge⟩, hlen.le⟩, replayOf, if_pos hlen.le] at h
    exact (trimToSafeStart_eq_self hne).mp h
  · intro h
    have heq : (if (∃ w ∈ ws, c ≤ w.length) ∧ ws.flatten.length ≤ c then
        trimToSafeStart ws.flatten else replayOf c ws.flatten) = replayOf c ws.flatten := by
      split_ifs with hfull
      · obtain ⟨⟨w, hw, hwc⟩, hle⟩ := hfull
        have hmem := length_le_flatten hw
        have hne : ws.flatten ≠ [] := by
          intro hnil
          rw [hnil, List.length_nil] at hmem
          omega
        rw [replayOf, if_pos hle]
        exact (trimToSafeStart_eq_self hne).mpr (h ⟨w, hw, by omega⟩ (by omega))
      · rfl
    exact ⟨heq, heq, rfl⟩

/-- Chunks of three bytes and one of the capacity, through four bytes of buffer. -/
theorem replay_buffers_agree_overflow :
    let ws := [[97, 98, 10], [], [99, 100, 101], [0x1b, 91, 54, 110]]
    brokerReplay 4 ws = [0x1b, 91, 54, 110] ∧
      brokerReplay 4 ws = hubReplay 4 ws ∧ brokerReplay 4 ws = replayOf 4 ws.flatten ∧
      hubReplay 4 ws = replayOf 4 ws.flatten :=
  ⟨by decide, (replay_buffers_agree_iff 4 (by decide) _).mpr (by decide)⟩

/-- A line feed in a first write of exactly the capacity: the ring drops the first line. -/
theorem full_first_write_trimmed :
    ¬∀ c, 1 ≤ c → ∀ ws : List (List UInt8),
      brokerReplay c ws = hubReplay c ws ∧ brokerReplay c ws = replayOf c ws.flatten ∧
        hubReplay c ws = replayOf c ws.flatten := by
  intro h
  have hbroker : brokerReplay 5 [[104, 10, 108, 108, 111]] = [108, 108, 111] := by decide
  have hhub : hubReplay 5 [[104, 10, 108, 108, 111]] = [104, 10, 108, 108, 111] := by decide
  have heq := (h 5 (by decide) [[104, 10, 108, 108, 111]]).1
  rw [hbroker, hhub] at heq
  exact absurd heq (by decide)

end ClaudeFleet.RingBuffer
