import ClaudeFleet.JsText
import ClaudeFleet.Records

/-! Requests come one on each line of a stream that arrives in chunks. A line that is too long is
reported and dropped, while it comes in or when it is complete. -/
namespace ClaudeFleet.LineSplitter
open Js Records

/-- How many bytes UTF-8 takes for a code unit that is no half of a pair. -/
def unitBytes (u : UInt16) : ℕ := if u < 0x80 then 1 else if u < 0x800 then 2 else 3

def byteLength : Text → ℕ
  | [] => 0
  | [u] => unitBytes u
  | u :: v :: s =>
    if isLead u && isTrail v then 4 + byteLength s else unitBytes u + byteLength (v :: s)

theorem one_le_unitBytes (u : UInt16) : 1 ≤ unitBytes u := by
  unfold unitBytes
  split_ifs <;> omega

/-- A text has at least as many bytes as code units. -/
theorem length_le_byteLength (s : Text) : s.length ≤ byteLength s := by
  induction s using byteLength.induct with
  | case1 => simp [byteLength]
  | case2 u =>
    have := one_le_unitBytes u
    simpa [byteLength] using this
  | case3 u v s hpair ih =>
    rw [byteLength, if_pos hpair]
    simp only [List.length_cons]
    omega
  | case4 u v s hpair ih =>
    have := one_le_unitBytes u
    rw [byteLength, if_neg hpair]
    simp only [List.length_cons] at ih ⊢
    omega

inductive Callback
  | line (line : Text)
  | oversize
  deriving DecidableEq

/-- The splitter, with what it has called so far. -/
structure State where
  buf : Text := []
  skipping : Bool := false
  stopped : Bool := false
  calls : List Callback := []

/-- What the caller of the splitter does with a line: whether it goes on. Its answer can depend on
everything it has been told before. -/
abbrev OnLine := List Callback → Text → Bool

variable (onLine : OnLine) (max : ℕ)

/-- The turn of the loop for a part of the chunk that ends with a line break. -/
def lineEnd (s : State) (part : Text) : State :=
  if s.skipping then { s with skipping := false, buf := [] }
  else if max < byteLength (s.buf ++ part) then
    { s with buf := [], calls := s.calls ++ [.oversize] }
  else
    { s with
      buf := []
      calls := s.calls ++ [.line (s.buf ++ part)]
      stopped := !onLine s.calls (s.buf ++ part) }

def chunkEnd (s : State) (rest : Text) : State :=
  if max < (s.buf ++ rest).length then
    { s with buf := [], skipping := true, calls := s.calls ++ [.oversize] }
  else { s with buf := s.buf ++ rest }

def push (s : State) (chunk : Text) : State :=
  let s := (complete newline chunk).foldl
    (fun s part => if s.stopped then s else lineEnd onLine max s part) s
  if s.stopped || s.skipping then s
  else chunkEnd max s (chunk.rtakeWhile (· != newline))

/-! The callbacks for a stream as a whole. -/

/-- The calls made for the lines so far, and whether the caller has said that it has enough. -/
structure Told where
  calls : List Callback := []
  stopped : Bool := false

def tell (t : Told) (line : Text) : Told :=
  if t.stopped then t
  else if max < byteLength line then { t with calls := t.calls ++ [.oversize] }
  else ⟨t.calls ++ [.line line], !onLine t.calls line⟩

def told (stream : Text) : Told := (complete newline stream).foldl (tell onLine max) {}

/-- Each complete line, and then the one that is not, once it is too long. -/
def callbacks (stream : Text) : List Callback :=
  let t := told onLine max stream
  if t.stopped = false ∧ max < (stream.rtakeWhile (· != newline)).length then
    t.calls ++ [.oversize]
  else t.calls

/-- What the splitter holds after a stream. -/
inductive Read (stream : Text) : State → Prop
  | stopped (s : State) (hstopped : s.stopped = true)
    (htold : told onLine max stream = ⟨s.calls, true⟩) : Read stream s
  | skipping (s : State) (hskipping : s.skipping = true) (hstopped : s.stopped = false)
    (hlong : max < (stream.rtakeWhile (· != newline)).length) (calls : List Callback)
    (hcalls : s.calls = calls ++ [.oversize])
    (htold : told onLine max stream = ⟨calls, false⟩) : Read stream s
  | reading (s : State) (hskipping : s.skipping = false) (hstopped : s.stopped = false)
    (hbuf : s.buf = stream.rtakeWhile (· != newline)) (hshort : s.buf.length ≤ max)
    (htold : told onLine max stream = ⟨s.calls, false⟩) : Read stream s

variable {onLine max}

theorem rtakeWhile_concat (stream : Text) :
    (stream ++ [newline]).rtakeWhile (· != newline) = [] := by
  rw [List.rtakeWhile_concat]
  simp

theorem rtakeWhile_append {rest : Text} (h : newline ∉ rest) (stream : Text) :
    (stream ++ rest).rtakeWhile (· != newline) =
      stream.rtakeWhile (· != newline) ++ rest := by
  induction rest using List.reverseRecOn with
  | nil => simp
  | append_singleton rest u ih =>
    simp only [List.mem_append, List.mem_singleton, not_or] at h
    rw [← List.append_assoc, List.rtakeWhile_concat, if_pos (by simpa using Ne.symm h.2), ih h.1]
    simp

/-- A stream is its complete lines and the beginning of the next. -/
theorem exists_tail (stream : Text) :
    ∃ front, stream = front ++ stream.rtakeWhile (· != newline) ∧ Boundary newline front :=
  ⟨stream.rdropWhile (· != newline), (List.rdropWhile_append_rtakeWhile).symm,
    boundary_rdropWhile stream⟩

theorem complete_line {part : Text} (h : newline ∉ part) (stream : Text) :
    complete newline (stream ++ (part ++ [newline])) =
      complete newline stream ++ [stream.rtakeWhile (· != newline) ++ part] := by
  obtain ⟨front, hstream, hfront⟩ := exists_tail stream
  have htail : newline ∉ stream.rtakeWhile (· != newline) := fun hmem => by
    simpa using List.mem_rtakeWhile_imp hmem
  have hline : newline ∉ stream.rtakeWhile (· != newline) ++ part := by
    simp [h, htail]
  nth_rewrite 1 2 [hstream]
  rw [List.append_assoc, ← List.append_assoc _ part, complete_append hfront,
    complete_append hfront, complete_record hline, complete_of_notMem htail, complete_nil,
    List.append_nil]

theorem complete_rest {rest : Text} (h : newline ∉ rest) (stream : Text) :
    complete newline (stream ++ rest) = complete newline stream := by
  obtain ⟨front, hstream, hfront⟩ := exists_tail stream
  have htail : newline ∉ stream.rtakeWhile (· != newline) := fun hmem => by
    simpa using List.mem_rtakeWhile_imp hmem
  have hboth : newline ∉ stream.rtakeWhile (· != newline) ++ rest := by
    rw [List.mem_append, not_or]
    exact ⟨htail, h⟩
  nth_rewrite 1 2 [hstream]
  rw [List.append_assoc, complete_append hfront, complete_append hfront,
    complete_of_notMem htail, complete_of_notMem hboth]

theorem told_line {part : Text} (h : newline ∉ part) (stream : Text) :
    told onLine max (stream ++ (part ++ [newline])) =
      tell onLine max (told onLine max stream) (stream.rtakeWhile (· != newline) ++ part) := by
  rw [told, complete_line h, List.foldl_append]
  rfl

theorem told_rest {rest : Text} (h : newline ∉ rest) (stream : Text) :
    told onLine max (stream ++ rest) = told onLine max stream := by
  rw [told, complete_rest h, told]

theorem Read.init : Read onLine max [] {} :=
  .reading _ rfl rfl rfl (Nat.zero_le _) rfl

theorem Read.calls {stream : Text} {s : State} (h : Read onLine max stream s) :
    s.calls = callbacks onLine max stream := by
  unfold callbacks
  cases h with
  | stopped _ htold => simp [htold]
  | skipping _ _ hlong calls hcalls htold => simp [htold, hlong, hcalls]
  | reading _ _ hbuf hshort htold =>
    rw [hbuf] at hshort
    simp [htold, Nat.not_lt.mpr hshort]

/-- A line of the stream is complete. -/
theorem Read.lineEnd {stream part : Text} {s : State} (h : Read onLine max stream s)
    (hpart : newline ∉ part) :
    Read onLine max (stream ++ (part ++ [newline]))
      (if s.stopped then s else lineEnd onLine max s part) := by
  have htail : (stream ++ (part ++ [newline])).rtakeWhile (· != newline) = [] := by
    rw [← List.append_assoc]
    exact rtakeWhile_concat _
  have hline : told onLine max (stream ++ (part ++ [newline])) = _ := told_line hpart stream
  cases h with
  | stopped hstopped htold =>
    rw [if_pos hstopped]
    refine .stopped _ hstopped ?_
    rw [hline, htold, tell, if_pos rfl]
  | skipping hskipping hstopped hlong calls hcalls htold =>
    -- the report made while the line came in is the one of the complete line
    have hbytes : max < byteLength (stream.rtakeWhile (· != newline) ++ part) := by
      have := length_le_byteLength (stream.rtakeWhile (· != newline) ++ part)
      rw [List.length_append] at this
      omega
    rw [if_neg (by simp [hstopped]), LineSplitter.lineEnd, if_pos hskipping]
    refine .reading _ rfl hstopped htail.symm (Nat.zero_le _) ?_
    rw [hline, htold, tell, if_neg (by simp), if_pos hbytes, hcalls]
  | reading hskipping hstopped hbuf hshort htold =>
    rw [if_neg (by simp [hstopped]), LineSplitter.lineEnd, if_neg (by simp [hskipping])]
    rw [htold, tell, if_neg (by simp), ← hbuf] at hline
    by_cases hbytes : max < byteLength (s.buf ++ part)
    · rw [if_pos hbytes] at hline ⊢
      exact .reading _ hskipping hstopped htail.symm (Nat.zero_le _) hline
    · rw [if_neg hbytes] at hline ⊢
      cases hgo : onLine s.calls (s.buf ++ part) with
      | false => exact .stopped _ (by simp) (by simpa [hgo] using hline)
      | true =>
        exact .reading _ hskipping (by simp) htail.symm (Nat.zero_le _)
          (by simpa [hgo] using hline)

/-- The lines of a chunk that ends with a line. -/
theorem Read.lines {stream chunk : Text} {s : State} (h : Read onLine max stream s)
    (hchunk : Boundary newline chunk) :
    Read onLine max (stream ++ chunk) ((complete newline chunk).foldl
      (fun s part => if s.stopped then s else LineSplitter.lineEnd onLine max s part) s) := by
  induction hlen : chunk.length using Nat.strong_induction_on generalizing stream chunk s with
  | _ n ih =>
    obtain rfl | ⟨part, rest, hpart, rfl, hrest⟩ := hchunk.cases
    · simpa [complete_nil] using h
    · have hshorter : rest.length < n := by
        simp only [← hlen, List.length_append, List.length_cons]
        omega
      have hnext := ih rest.length hshorter (h.lineEnd hpart) hrest rfl
      rw [complete_record hpart, List.foldl_cons]
      simpa using hnext

theorem Read.push {stream : Text} {s : State} (h : Read onLine max stream s) (chunk : Text) :
    Read onLine max (stream ++ chunk) (push onLine max s chunk) := by
  obtain ⟨front, hchunk, hfront⟩ := exists_tail chunk
  have hrest : newline ∉ chunk.rtakeWhile (· != newline) := fun hmem => by
    simpa using List.mem_rtakeWhile_imp hmem
  have hcomplete : complete newline chunk = complete newline front := by
    nth_rewrite 1 [hchunk]
    exact complete_rest hrest front
  have hread := h.lines hfront
  rw [← hcomplete] at hread
  have htold : told onLine max (stream ++ front ++ _) = _ := told_rest hrest (stream ++ front)
  have htail := rtakeWhile_append hrest (stream ++ front)
  have hstream : stream ++ chunk = stream ++ front ++ chunk.rtakeWhile (· != newline) := by
    nth_rewrite 1 [hchunk]
    simp
  rw [hstream, LineSplitter.push]
  generalize (complete newline chunk).foldl _ s = s' at hread ⊢
  cases hread with
  | stopped hstopped ht =>
    rw [if_pos (by simp [hstopped])]
    exact .stopped _ hstopped (htold.trans ht)
  | skipping hskipping hstopped hlong calls hcalls ht =>
    rw [if_pos (by simp [hskipping])]
    refine .skipping _ hskipping hstopped ?_ calls hcalls (htold.trans ht)
    rw [htail, List.length_append]
    omega
  | reading hskipping hstopped hbuf hshort ht =>
    rw [if_neg (by simp [hskipping, hstopped]), chunkEnd, hbuf, ← htail]
    split_ifs with hlong
    · exact .skipping _ rfl hstopped hlong s'.calls rfl (htold.trans ht)
    · exact .reading _ hskipping hstopped rfl (Nat.not_lt.mp hlong) (htold.trans ht)

/-- However the stream is cut into chunks, the calls are those for the stream as a whole. -/
theorem calls_of_stream (onLine : OnLine) (max : ℕ) (chunks : List Text) :
    (chunks.foldl (push onLine max) {}).calls = callbacks onLine max chunks.flatten := by
  have hread : ∀ (chunks : List Text) (stream : Text) (s : State), Read onLine max stream s →
      Read onLine max (stream ++ chunks.flatten) (chunks.foldl (push onLine max) s) := by
    intro chunks
    induction chunks with
    | nil => simp
    | cons chunk chunks ih =>
      intro stream s h
      have := ih _ _ (h.push chunk)
      simpa using this
  exact (hread chunks [] {} .init).calls

end ClaudeFleet.LineSplitter
