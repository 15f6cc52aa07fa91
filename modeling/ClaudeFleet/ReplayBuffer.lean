import Mathlib.Tactic

/-! The bounded buffer of recent session output that newcomers are replayed from. -/
namespace ClaudeFleet.ReplayBuffer

/-- The earliest position that is not inside an escape sequence or a codepoint. -/
def trimToSafeStart (b : List UInt8) : List UInt8 :=
  match b.findIdx? (· = 0x1b), b.findIdx? (· = 0x0a) with
  | none, none => b.dropWhile fun x => x &&& 0xc0 = 0x80
  | none, some nl => b.drop (nl + 1)
  | some esc, none => b.drop esc
  | some esc, some nl => if esc < nl + 1 then b.drop esc else b.drop (nl + 1)

structure Buffer where
  chunks : List (List UInt8) := []
  size : ℕ := 0
  wrapped : Bool := false
  deriving DecidableEq

/-- Drop bytes from the head chunks while the buffer is over its capacity. -/
def evict (cap : ℕ) : List (List UInt8) → ℕ → Bool → Buffer
  | [], size, wrapped => ⟨[], size, wrapped⟩
  | head :: rest, size, wrapped =>
    if size > cap then
      if head.length ≤ size - cap then evict cap rest (size - head.length) true
      else ⟨head.drop (size - cap) :: rest, cap, true⟩
    else ⟨head :: rest, size, wrapped⟩

def append (cap : ℕ) (r : Buffer) (b : List UInt8) : Buffer :=
  evict cap (r.chunks ++ [b]) (r.size + b.length) r.wrapped

def snapshot (r : Buffer) : List UInt8 :=
  if r.wrapped then trimToSafeStart r.chunks.flatten else r.chunks.flatten

theorem trimToSafeStart_suffix (b : List UInt8) : trimToSafeStart b <:+ b := by
  unfold trimToSafeStart
  split
  · exact List.dropWhile_suffix _
  · exact List.drop_suffix _ _
  · exact List.drop_suffix _ _
  · split_ifs
    · exact List.drop_suffix _ _
    · exact List.drop_suffix _ _

theorem evict_suffix (cap : ℕ) (chunks : List (List UInt8)) (size : ℕ) (wrapped : Bool) :
    (evict cap chunks size wrapped).chunks.flatten <:+ chunks.flatten := by
  induction chunks generalizing size wrapped with
  | nil => exact List.suffix_refl _
  | cons head rest ih =>
    unfold evict
    split_ifs
    · exact (ih _ _).trans (List.suffix_append _ _)
    · simp only [List.flatten_cons]
      obtain ⟨pre, hpre⟩ := List.drop_suffix (size - cap) head
      refine ⟨pre, ?_⟩
      rw [← List.append_assoc, hpre]
    · exact List.suffix_refl _

/-- The size field counts the buffered bytes, and they fit the capacity. -/
structure Sized (cap : ℕ) (r : Buffer) : Prop where
  size : r.size = r.chunks.flatten.length
  fits : r.size ≤ cap

theorem evict_sized (cap : ℕ) (chunks : List (List UInt8)) (wrapped : Bool) :
    Sized cap (evict cap chunks chunks.flatten.length wrapped) := by
  induction chunks generalizing wrapped with
  | nil => exact ⟨rfl, Nat.zero_le _⟩
  | cons head rest ih =>
    have hlen : (head :: rest).flatten.length = head.length + rest.flatten.length := by simp
    unfold evict
    split_ifs with hcap hhead
    · have hrest : (head :: rest).flatten.length - head.length = rest.flatten.length := by omega
      rw [hrest]
      exact ih true
    · refine ⟨?_, le_refl _⟩
      simp only [List.flatten_cons, List.length_append, List.length_drop]
      omega
    · exact ⟨rfl, not_lt.mp hcap⟩

theorem append_sized {cap : ℕ} {r : Buffer} (h : Sized cap r) (b : List UInt8) :
    Sized cap (append cap r b) := by
  have hsize : r.size + b.length = (r.chunks ++ [b]).flatten.length := by
    simp [h.size]
  unfold append
  rw [hsize]
  exact evict_sized cap _ _

theorem append_suffix (cap : ℕ) (r : Buffer) (b : List UInt8) :
    (append cap r b).chunks.flatten <:+ r.chunks.flatten ++ b := by
  have h := evict_suffix cap (r.chunks ++ [b]) (r.size + b.length) r.wrapped
  rw [List.flatten_append, List.flatten_cons, List.flatten_nil, List.append_nil] at h
  exact h

theorem snapshot_suffix (r : Buffer) : snapshot r <:+ r.chunks.flatten := by
  unfold snapshot
  split_ifs
  · exact trimToSafeStart_suffix _
  · exact List.suffix_refl _

end ClaudeFleet.ReplayBuffer
