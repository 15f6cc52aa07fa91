import ClaudeFleet.HostIngest

/-! The lines of the committed transactions are the lines of the file up to the stored offset. A
line that fits into one read is never too long, whatever the size cap is. -/
namespace ClaudeFleet.HostIngest
open Records Transition

theorem takeWhile_newline {l : Bytes} (h : newline ∈ l) :
    ∃ rest, l = l.takeWhile (· != newline) ++ newline :: rest := by
  induction l with
  | nil => cases h
  | cons x l ih =>
    by_cases hx : x = newline
    · exact ⟨l, by simp [hx]⟩
    · obtain ⟨rest, hrest⟩ := ih ((List.mem_cons.mp h).resolve_left fun he => hx he.symm)
      refine ⟨rest, ?_⟩
      rw [List.takeWhile_cons_of_pos (by simpa using hx), List.cons_append, ← hrest]

theorem newline_notMem_takeWhile (l : Bytes) : newline ∉ l.takeWhile (· != newline) := by
  intro h
  simpa using List.mem_takeWhile_imp h

theorem takeWhile_record {raw : Bytes} (h : newline ∉ raw) (rest : Bytes) :
    (raw ++ newline :: rest).takeWhile (· != newline) = raw := by
  rw [List.takeWhile_append_of_pos]
  · simp
  · intro x hx
    have hne : x ≠ newline := fun he => h (he ▸ hx)
    simpa using hne

/-- The first newline of the file before `size`. -/
theorem findNewline_spec {content : Bytes} {size step : ℕ} (hstep : 1 ≤ step)
    (hsize : size ≤ content.length) (fuel pos : ℕ) (hfuel : size ≤ fuel + pos) :
    (∀ nl, findNewline content size step fuel pos = some nl → nl < size ∧
      ∃ raw rest, newline ∉ raw ∧ content.drop pos = raw ++ newline :: rest ∧
        nl = pos + raw.length) ∧
    (findNewline content size step fuel pos = none → newline ∉ (content.take size).drop pos) := by
  induction fuel generalizing pos with
  | zero =>
    refine ⟨fun nl h => (by cases h), fun _ => ?_⟩
    rw [List.drop_eq_nil_of_le]
    · simp
    · rw [List.length_take]
      omega
  | succ fuel ih =>
    unfold findNewline
    by_cases hpos : pos < size
    · rw [if_pos hpos]
      dsimp only
      set buf := (content.drop pos).take (min step (size - pos)) with hbuf
      have hlen : buf.length = min step (size - pos) := by
        rw [hbuf, List.length_take, List.length_drop]
        omega
      have hsplit : content.drop pos = buf ++ content.drop (pos + buf.length) := by
        rw [hlen, ← List.drop_drop, hbuf, List.take_append_drop]
      by_cases hmem : newline ∈ buf
      · obtain ⟨rest, hrest⟩ := takeWhile_newline hmem
        have hlt : (buf.takeWhile (· != newline)).length < buf.length := by
          conv_rhs => rw [hrest]
          simp
        rw [if_pos hlt]
        refine ⟨?_, fun h => (by cases h)⟩
        intro nl hnl
        obtain rfl := Option.some.inj hnl
        refine ⟨by omega, buf.takeWhile (· != newline), rest ++ content.drop (pos + buf.length),
          newline_notMem_takeWhile buf, ?_, rfl⟩
        calc content.drop pos = buf ++ content.drop (pos + buf.length) := hsplit
          _ = buf.takeWhile (· != newline) ++ newline :: rest ++ content.drop (pos + buf.length) := by
              rw [← hrest]
          _ = _ := by rw [List.append_assoc, List.cons_append]
      · have hall : buf.takeWhile (· != newline) = buf := by
          rw [List.takeWhile_eq_self_iff]
          intro x hx
          have hne : x ≠ newline := fun he => hmem (he ▸ hx)
          simpa using hne
        have hne : buf ≠ [] := by
          intro hnil
          rw [hnil] at hlen
          simp only [List.length_nil] at hlen
          omega
        rw [hall, if_neg (lt_irrefl _), if_neg hne]
        obtain ⟨hsome, hnone⟩ := ih (pos + step) (by omega)
        have htake : (content.take size).drop pos = buf ++ (content.take size).drop (pos + step) := by
          rw [List.drop_take, List.drop_take, hbuf, ← List.drop_drop]
          rcases Nat.le_total step (size - pos) with hle | hle
          · have hsum : size - pos = step + (size - (pos + step)) := by omega
            rw [Nat.min_eq_left hle, ← List.take_add, ← hsum]
          · have hzero : size - (pos + step) = 0 := by omega
            rw [Nat.min_eq_right hle, hzero, List.take_zero, List.append_nil]
        refine ⟨fun nl hnl => ?_, fun hn => ?_⟩
        · obtain ⟨hlt, raw, rest, hraw, hdrop, rfl⟩ := hsome nl hnl
          have hbufLen : buf.length = step := by omega
          refine ⟨hlt, buf ++ raw, rest, ?_, ?_, ?_⟩
          · rw [List.mem_append, not_or]
            exact ⟨hmem, hraw⟩
          · rw [hsplit, hbufLen, hdrop, List.append_assoc]
          · rw [List.length_append]
            omega
        · rw [htake, List.mem_append, not_or]
          exact ⟨hmem, hnone hn⟩
    · rw [if_neg hpos]
      refine ⟨fun nl h => (by cases h), fun _ => ?_⟩
      rw [List.drop_eq_nil_of_le]
      · simp
      · rw [List.length_take]
        omega

variable {L : Type} (o : Options) (lineOf : Bytes → Option L)

/-- The size cap is on the lines that do not fit into one read. -/
def keeps (raw : Bytes) : Bool :=
  raw.length + 1 ≤ o.maxReadBytes || raw.length + 1 ≤ o.maxLineBytes

/-- The lines of a content that go into transactions. -/
def kept (content : Bytes) : List L :=
  (complete newline content).filterMap fun raw => if keeps o raw then lineOf raw else none

/-- A mark up to which everything is committed. -/
structure At (h : Host L) (m : ℕ) : Prop where
  le : m ≤ h.content.length
  boundary : Boundary newline (h.content.take m)
  lines : kept o lineOf (h.content.take m) = h.committed

structure Reading.Ok (h : Host L) (r : Reading L) : Prop where
  size : r.size ≤ h.content.length
  fits : r.offset + r.pos + r.rest.length ≤ r.size
  rest : ∃ tail, h.content.drop (r.offset + r.pos) = r.rest ++ tail
  boundary : Boundary newline (h.content.take (r.offset + r.pos))
  ends : Boundary newline r.rest
  keeps : ∀ raw ∈ complete newline r.rest, keeps o raw
  lines : kept o lineOf (h.content.take (r.offset + r.pos)) = h.committed ++ r.lines
  moved : r.rest = [] → 1 ≤ r.pos

def PhaseOk (h : Host L) : Phase L → Prop
  | .idle => True
  | .scanning offset size => size ≤ h.content.length ∧ At o lineOf h offset
  | .reading r => r.Ok o lineOf h

/-- Both marks and the run in progress agree with what is committed. -/
structure Exact (h : Host L) : Prop where
  done : At o lineOf h (h.done.getD 0)
  persisted : At o lineOf h (h.persisted.getD 0)
  phase : PhaseOk o lineOf h h.phase

variable {o lineOf}

theorem kept_append {a : Bytes} (h : Boundary newline a) (b : Bytes) :
    kept o lineOf (a ++ b) = kept o lineOf a ++ kept o lineOf b := by
  unfold kept
  rw [complete_append h, List.filterMap_append]

theorem kept_record {raw : Bytes} (h : newline ∉ raw) :
    kept o lineOf (raw ++ [newline]) = if keeps o raw then (lineOf raw).toList else [] := by
  unfold kept
  rw [complete_record h, complete_nil, List.filterMap_cons, List.filterMap_nil]
  cases hl : lineOf raw <;> split_ifs <;> simp_all

theorem At.zero {h : Host L} (hc : h.committed = []) : At o lineOf h 0 :=
  ⟨Nat.zero_le _, .nil, hc.symm⟩

/-- A mark stays right when the file grows. -/
theorem At.grow {h k : Host L} {m : ℕ} (hm : At o lineOf h m)
    (hcontent : ∃ more, k.content = h.content ++ more) (hcommitted : k.committed = h.committed) :
    At o lineOf k m := by
  obtain ⟨more, hmore⟩ := hcontent
  have htake : k.content.take m = h.content.take m := by
    rw [hmore, List.take_append_of_le_length hm.le]
  refine ⟨?_, htake ▸ hm.boundary, ?_⟩
  · rw [hmore, List.length_append]
    have := hm.le
    omega
  · rw [htake, hcommitted]
    exact hm.lines

theorem Reading.Ok.grow {h k : Host L} {r : Reading L} (hr : r.Ok o lineOf h)
    (hcontent : ∃ more, k.content = h.content ++ more) (hcommitted : k.committed = h.committed) :
    r.Ok o lineOf k := by
  obtain ⟨more, hmore⟩ := hcontent
  have hle : r.offset + r.pos ≤ h.content.length := by
    have := hr.size
    have := hr.fits
    omega
  have htake : k.content.take (r.offset + r.pos) = h.content.take (r.offset + r.pos) := by
    rw [hmore, List.take_append_of_le_length hle]
  refine ⟨?_, hr.fits, ?_, htake ▸ hr.boundary, hr.ends, hr.keeps, ?_, hr.moved⟩
  · rw [hmore, List.length_append]
    have := hr.size
    omega
  · obtain ⟨tail, htail⟩ := hr.rest
    refine ⟨tail ++ more, ?_⟩
    rw [hmore, List.drop_append_of_le_length hle, htail, List.append_assoc]
  · rw [htake, hcommitted]
    exact hr.lines

theorem PhaseOk.grow {h k : Host L} {p : Phase L} (hp : PhaseOk o lineOf h p)
    (hcontent : ∃ more, k.content = h.content ++ more) (hcommitted : k.committed = h.committed) :
    PhaseOk o lineOf k p := by
  cases p with
  | idle => trivial
  | scanning offset size =>
    refine ⟨?_, hp.2.grow hcontent hcommitted⟩
    obtain ⟨more, hmore⟩ := hcontent
    rw [hmore, List.length_append]
    exact hp.1.trans (Nat.le_add_right _ _)
  | reading r => exact Reading.Ok.grow hp hcontent hcommitted

/-- A step that keeps the content and the transactions can set the marks and the phase. -/
theorem Exact.set {h : Host L} (hx : Exact o lineOf h) {done : Option ℕ} {stopped : Bool}
    {p : Phase L} (hdone : At o lineOf h (done.getD 0)) (hp : PhaseOk o lineOf h p) :
    Exact o lineOf { h with done := done, stopped := stopped, phase := p } :=
  ⟨hdone.grow ⟨[], by simp⟩ rfl, hx.persisted.grow ⟨[], by simp⟩ rfl, hp.grow ⟨[], by simp⟩ rfl⟩

/-- The line loop over a piece of the file that begins at a mark. -/
theorem reading_of_piece {h : Host L} {offset size : ℕ} {piece : Bytes}
    (hm : At o lineOf h offset) (hsize : size ≤ h.content.length)
    (hpiece : ∃ tail, h.content.drop offset = piece ++ tail) (hne : piece ≠ [])
    (hends : Boundary newline piece) (hfits : offset + piece.length ≤ size)
    (hkeeps : ∀ raw ∈ complete newline piece, keeps o raw) :
    Reading.Ok o lineOf h ⟨offset, size, 0, piece, [], 0⟩ :=
  { size := hsize
    fits := hfits
    rest := hpiece
    boundary := hm.boundary
    ends := hends
    keeps := hkeeps
    lines := by rw [List.append_nil]; exact hm.lines
    moved := fun hnil => absurd hnil hne }

theorem take_piece {content piece tail : Bytes} {offset : ℕ}
    (h : content.drop offset = piece ++ tail) :
    content.take (offset + piece.length) = content.take offset ++ piece := by
  rw [List.take_add, h, List.take_left]

/-- A record that no transaction gets moves the mark alone. -/
theorem At.skip {h : Host L} {offset : ℕ} {raw tail : Bytes} (hm : At o lineOf h offset)
    (hpiece : h.content.drop offset = raw ++ newline :: tail) (hraw : newline ∉ raw)
    (hskip : keeps o raw = false) : At o lineOf h (offset + raw.length + 1) := by
  have hpiece' : h.content.drop offset = (raw ++ [newline]) ++ tail := by
    rw [hpiece, List.append_assoc, List.singleton_append]
  have htake : h.content.take (offset + raw.length + 1) =
      h.content.take offset ++ (raw ++ [newline]) := by
    rw [← take_piece hpiece', List.length_append, List.length_singleton, Nat.add_assoc]
  refine ⟨?_, ?_, ?_⟩
  · have hlen := congrArg List.length hpiece
    simp only [List.length_drop, List.length_append, List.length_cons] at hlen
    omega
  · rw [htake]
    exact hm.boundary.append (boundary_concat raw)
  · rw [htake, kept_append hm.boundary, kept_record hraw, hskip, hm.lines]
    simp

theorem readFrom_exact {h : Host L} (hread : 1 ≤ o.maxReadBytes) (hx : Exact o lineOf h)
    {offset size : ℕ} (hm : At o lineOf h offset) (hsize : size ≤ h.content.length)
    (hlt : offset < size) : Exact o lineOf (readFrom o h offset size) := by
  unfold readFrom
  dsimp only
  set want := min (size - offset) o.maxReadBytes with hwant
  set buf := (h.content.drop offset).take want with hbuf
  set upto := buf.rdropWhile (· != newline) with hupto
  have hlen : buf.length = want := by
    rw [hbuf, List.length_take, List.length_drop]
    omega
  have hsplit : h.content.drop offset = buf ++ h.content.drop (offset + buf.length) := by
    rw [hlen, ← List.drop_drop, hbuf, List.take_append_drop]
  split_ifs with hnil hshort
  · exact hx.set hx.done trivial
  · -- The line does not end in what was read.
    have hnot : newline ∉ buf := by
      intro hmem
      have hall := List.rdropWhile_eq_nil_iff.mp hnil newline hmem
      simp at hall
    obtain ⟨hsome, -⟩ := findNewline_spec hread hsize size (offset + buf.length) (by omega)
    cases hfind : findNewline h.content size o.maxReadBytes size (offset + buf.length) with
    | none => exact hx.set hx.done trivial
    | some nl =>
      obtain ⟨hnl, more, tail, hmore, hdrop, rfl⟩ := hsome nl hfind
      have hraw : newline ∉ buf ++ more := by
        rw [List.mem_append, not_or]
        exact ⟨hnot, hmore⟩
      have hline : h.content.drop offset = (buf ++ more) ++ newline :: tail := by
        rw [hsplit, hdrop, List.append_assoc]
      have hend : offset + buf.length + more.length + 1 = offset + (buf ++ more).length + 1 := by
        rw [List.length_append]
        omega
      have hcap : offset + buf.length + more.length + 1 - offset = (buf ++ more).length + 1 := by
        rw [List.length_append]
        omega
      dsimp only
      rw [hcap, hend]
      split_ifs with hlong
      · have hskip : keeps o (buf ++ more) = false := by
          unfold keeps
          rw [Bool.or_eq_false_iff, decide_eq_false_iff_not, decide_eq_false_iff_not]
          refine ⟨?_, by omega⟩
          rw [List.length_append]
          omega
        have hmark := hm.skip hline hraw hskip
        exact hx.set hmark ⟨hsize, hmark⟩
      · have hsnoc : h.content.drop offset = ((buf ++ more) ++ [newline]) ++ tail := by
          rw [hline]
          simp
        have hpiece : (h.content.drop offset).take ((buf ++ more).length + 1) =
            (buf ++ more) ++ [newline] := by
          rw [hsnoc]
          refine List.take_left' ?_
          simp only [List.length_append, List.length_singleton]
        rw [hpiece]
        refine hx.set hx.done (reading_of_piece hm hsize ⟨tail, hsnoc⟩ ?_ ?_ ?_ ?_)
        · simp
        · exact boundary_concat _
        · simp only [List.length_append, List.length_singleton]
          omega
        · intro raw hrec
          rw [complete_record hraw, complete_nil, List.mem_singleton] at hrec
          subst hrec
          unfold keeps
          rw [Bool.or_eq_true, decide_eq_true_eq, decide_eq_true_eq]
          exact .inr (by omega)
  · obtain ⟨left, hleft⟩ : ∃ left, upto ++ left = buf :=
      ⟨_, List.rdropWhile_append_rtakeWhile (p := (· != newline)) (l := buf)⟩
    have hpiece : h.content.drop offset = upto ++ (left ++ h.content.drop (offset + buf.length)) := by
      rw [← List.append_assoc, hleft]
      exact hsplit
    refine hx.set hx.done
      (reading_of_piece hm hsize ⟨_, hpiece⟩ hnil (boundary_rdropWhile buf) ?_ ?_)
    · have := congrArg List.length hleft
      rw [List.length_append] at this
      omega
    · intro raw hrec
      have hrecLen := mem_complete_length hrec
      have := congrArg List.length hleft
      rw [List.length_append] at this
      unfold keeps
      rw [Bool.or_eq_true, decide_eq_true_eq, decide_eq_true_eq]
      exact .inl (by omega)

/-- The next record of the loop is taken over. -/
theorem Reading.Ok.take {h : Host L} {r : Reading L} {raw rest : Bytes} (hr : r.Ok o lineOf h)
    (hrest : r.rest = raw ++ newline :: rest) (hraw : newline ∉ raw)
    (hends : Boundary newline rest) : (HostIngest.take lineOf r raw).Ok o lineOf h := by
  obtain ⟨tail, htail⟩ := hr.rest
  have hdrop : r.rest.drop (raw.length + 1) = rest := by
    rw [hrest]
    simp
  have hfits := hr.fits
  rw [hrest] at hfits htail
  simp only [List.length_append, List.length_cons] at hfits
  have hpiece : h.content.drop (r.offset + r.pos) = (raw ++ [newline]) ++ (rest ++ tail) := by
    rw [htail]
    simp
  have hpos : r.offset + (r.pos + raw.length + 1) =
      r.offset + r.pos + (raw ++ [newline]).length := by
    simp only [List.length_append, List.length_singleton]
    omega
  have htake : h.content.take (r.offset + (r.pos + raw.length + 1)) =
      h.content.take (r.offset + r.pos) ++ (raw ++ [newline]) := by
    rw [hpos, take_piece hpiece]
  have hrec : raw ∈ complete newline r.rest := by
    rw [hrest, complete_record hraw]
    exact List.mem_cons_self
  have hlines : (HostIngest.take lineOf r raw).lines = r.lines ++ (lineOf raw).toList := rfl
  refine
    { size := hr.size
      fits := ?_
      rest := ⟨tail, ?_⟩
      boundary := ?_
      ends := ?_
      keeps := ?_
      lines := ?_
      moved := fun _ => ?_ }
  · change r.offset + (r.pos + raw.length + 1) + (r.rest.drop (raw.length + 1)).length ≤ r.size
    rw [hdrop]
    omega
  · change h.content.drop (r.offset + (r.pos + raw.length + 1)) = r.rest.drop (raw.length + 1) ++ tail
    rw [hdrop, hpos, ← List.drop_drop, hpiece, List.drop_left]
  · change Boundary newline (h.content.take (r.offset + (r.pos + raw.length + 1)))
    rw [htake]
    exact hr.boundary.append (boundary_concat raw)
  · change Boundary newline (r.rest.drop (raw.length + 1))
    rwa [hdrop]
  · change ∀ x ∈ complete newline (r.rest.drop (raw.length + 1)), HostIngest.keeps o x
    rw [hdrop]
    intro x hx
    refine hr.keeps x ?_
    rw [hrest, complete_record hraw]
    exact List.mem_cons_of_mem _ hx
  · rw [hlines]
    change kept o lineOf (h.content.take (r.offset + (r.pos + raw.length + 1))) = _
    rw [htake, kept_append hr.boundary, kept_record hraw, hr.keeps raw hrec, hr.lines,
      List.append_assoc]
    rfl
  · change 1 ≤ r.pos + raw.length + 1
    omega

/-- Everything up to the flush is committed after it. -/
theorem At.flush {h : Host L} {r : Reading L} (hr : r.Ok o lineOf h) :
    At o lineOf (HostIngest.flush h r.lines (r.offset + r.pos)) (r.offset + r.pos) := by
  have hcontent : (HostIngest.flush h r.lines (r.offset + r.pos)).content = h.content := by
    unfold HostIngest.flush
    split_ifs <;> rfl
  have hcommitted : (HostIngest.flush h r.lines (r.offset + r.pos)).committed =
      h.committed ++ r.lines := by
    unfold HostIngest.flush
    split_ifs with hnil
    · simp [hnil]
    · rfl
  refine ⟨?_, ?_, ?_⟩
  · rw [hcontent]
    have := hr.fits
    have := hr.size
    omega
  · rw [hcontent]
    exact hr.boundary
  · rw [hcontent, hcommitted]
    exact hr.lines

theorem Exact.flush {h : Host L} {r : Reading L} {p : Phase L} (hx : Exact o lineOf h)
    (hr : r.Ok o lineOf h)
    (hp : PhaseOk o lineOf (HostIngest.flush h r.lines (r.offset + r.pos)) p) :
    Exact o lineOf { HostIngest.flush h r.lines (r.offset + r.pos) with phase := p } := by
  have hat := At.flush hr
  have hdone : (HostIngest.flush h r.lines (r.offset + r.pos)).done = some (r.offset + r.pos) := by
    unfold HostIngest.flush
    split_ifs <;> rfl
  have hpersisted : At o lineOf (HostIngest.flush h r.lines (r.offset + r.pos))
      ((HostIngest.flush h r.lines (r.offset + r.pos)).persisted.getD 0) := by
    unfold HostIngest.flush at hat ⊢
    split_ifs at hat ⊢ with hnil
    · exact hx.persisted.grow ⟨[], by simp⟩ rfl
    · exact hat
  have hmark : At o lineOf (HostIngest.flush h r.lines (r.offset + r.pos))
      ((HostIngest.flush h r.lines (r.offset + r.pos)).done.getD 0) := by
    rw [hdone]
    exact hat
  exact ⟨hmark.grow ⟨[], by simp⟩ rfl, hpersisted.grow ⟨[], by simp⟩ rfl,
    hp.grow ⟨[], by simp⟩ rfl⟩

/-- The loop goes on without the lines of the last transaction. -/
theorem Reading.Ok.flush {h : Host L} {r : Reading L} (hr : r.Ok o lineOf h) :
    Reading.Ok o lineOf (HostIngest.flush h r.lines (r.offset + r.pos))
      { r with lines := [], bytes := 0 } := by
  have hat := At.flush hr
  have hcontent : (HostIngest.flush h r.lines (r.offset + r.pos)).content = h.content := by
    unfold HostIngest.flush
    split_ifs <;> rfl
  refine
    { size := ?_
      fits := hr.fits
      rest := ?_
      boundary := hat.boundary
      ends := hr.ends
      keeps := hr.keeps
      lines := ?_
      moved := hr.moved }
  · rw [hcontent]
    exact hr.size
  · rw [hcontent]
    exact hr.rest
  · rw [List.append_nil]
    exact hat.lines

theorem lineStep_exact {h : Host L} {r : Reading L} (hx : Exact o lineOf h)
    (hr : r.Ok o lineOf h) (commits : Bool) : Exact o lineOf (lineStep o lineOf h r commits) := by
  unfold lineStep
  dsimp only
  split_ifs with hnil hflush hstop hfull hcommits
  · refine hx.flush hr ⟨?_, At.flush hr⟩
    have hcontent : (HostIngest.flush h r.lines (r.offset + r.pos)).content = h.content := by
      unfold HostIngest.flush
      split_ifs <;> rfl
    rw [hcontent]
    exact hr.size
  · exact hx.set hx.done trivial
  · exact hx.set hx.done trivial
  · obtain hempty | ⟨raw, rest, hraw, hrest, hends⟩ := hr.ends.cases
    · exact absurd hempty hnil
    · have hhead : r.rest.takeWhile (· != newline) = raw := by rw [hrest, takeWhile_record hraw]
      rw [hhead]
      exact hx.flush hr (hr.flush.take hrest hraw hends)
  · exact hx.set hx.done trivial
  · obtain hempty | ⟨raw, rest, hraw, hrest, hends⟩ := hr.ends.cases
    · exact absurd hempty hnil
    · have hhead : r.rest.takeWhile (· != newline) = raw := by rw [hrest, takeWhile_record hraw]
      rw [hhead]
      exact hx.set hx.done (hr.take hrest hraw hends)

theorem step_exact (hread : 1 ≤ o.maxReadBytes) (h : Host L) (a : Action) (t : Host L)
    (hx : Exact o lineOf h) (hs : step o lineOf h a = some t) : Exact o lineOf t := by
  cases a with
  | append more =>
    obtain rfl := Option.some.inj hs
    exact ⟨hx.done.grow ⟨more, rfl⟩ rfl, hx.persisted.grow ⟨more, rfl⟩ rfl,
      hx.phase.grow ⟨more, rfl⟩ rfl⟩
  | process =>
    simp only [step] at hs
    split at hs
    · split at hs
      · cases hs
      · obtain rfl := Option.some.inj hs
        rw [if_neg (Nat.not_lt.mpr hx.done.le)]
        exact hx.set hx.done ⟨le_rfl, hx.done⟩
    · cases hs
  | read =>
    simp only [step] at hs
    split at hs
    · next offset size hphase =>
      have hp := hx.phase
      rw [hphase] at hp
      split at hs
      · next hgo =>
        obtain rfl := Option.some.inj hs
        exact readFrom_exact hread hx hp.2 hp.1 hgo.1
      · obtain rfl := Option.some.inj hs
        exact hx.set hx.done trivial
    · cases hs
  | line commits =>
    simp only [step] at hs
    split at hs
    · next r hphase =>
      have hp := hx.phase
      rw [hphase] at hp
      obtain rfl := Option.some.inj hs
      exact lineStep_exact hx hp commits
    · cases hs
  | stop =>
    obtain rfl := Option.some.inj hs
    exact hx.set hx.done hx.phase
  | restart =>
    obtain rfl := Option.some.inj hs
    exact hx.set hx.persisted trivial

theorem start_exact : Exact o lineOf (start L) :=
  ⟨At.zero rfl, At.zero rfl, trivial⟩

theorem reachable_exact (hread : 1 ≤ o.maxReadBytes) {as : List Action} {h : Host L}
    (hr : run (step o lineOf) (start L) as = some h) : Exact o lineOf h :=
  run_invariant (step_exact hread) start_exact hr

/-- The turns of the loops of one run of process. -/
def Action.turn : Action → Bool
  | .read => true
  | .line _ => true
  | _ => false

/-- What is left for the loops to do. -/
def Host.left (h : Host L) : ℕ :=
  match h.phase with
  | .idle => 0
  | .scanning offset size => 3 * (size - offset) + 1
  | .reading r => 3 * (r.size - (r.offset + r.pos)) + if r.pos = 0 then 0 else 2

theorem flush_phase (h : Host L) (lines : List L) (stop : ℕ) (p : Phase L) :
    Host.left { HostIngest.flush h lines stop with phase := p } = Host.left { h with phase := p } := by
  unfold HostIngest.flush
  split_ifs <;> rfl

theorem readFrom_left {h : Host L} (hread : 1 ≤ o.maxReadBytes) {offset size : ℕ}
    (hsize : size ≤ h.content.length) (hlt : offset < size) :
    (readFrom o h offset size).left < 3 * (size - offset) + 1 := by
  unfold readFrom
  dsimp only
  split_ifs with hnil hshort
  · exact Nat.succ_pos _
  · split
    · exact Nat.succ_pos _
    · next nl hfind =>
      obtain ⟨hsome, -⟩ := findNewline_spec hread hsize size
        (offset + ((h.content.drop offset).take (min (size - offset) o.maxReadBytes)).length)
        (by omega)
      obtain ⟨hnl, raw, -, -, -, hpos⟩ := hsome nl hfind
      split_ifs
      · change 3 * (size - (nl + 1)) + 1 < 3 * (size - offset) + 1
        omega
      · exact Nat.lt_succ_self _
  · exact Nat.lt_succ_self _

theorem lineStep_left {h : Host L} {r : Reading L} (hphase : h.phase = .reading r)
    (hr : r.Ok o lineOf h) (commits : Bool) : (lineStep o lineOf h r commits).left < h.left := by
  have hleft : h.left = 3 * (r.size - (r.offset + r.pos)) + if r.pos = 0 then 0 else 2 := by
    unfold Host.left
    rw [hphase]
  have hfits := hr.fits
  have hpos : 0 < h.left := by
    rw [hleft]
    by_cases hzero : r.pos = 0
    · have hne : r.rest ≠ [] := fun hnil => by
        have := hr.moved hnil
        omega
      have := List.length_pos_iff.mpr hne
      rw [if_pos hzero]
      omega
    · rw [if_neg hzero]
      omega
  have htake : ∀ {r' : Reading L} {raw rest : Bytes}, r'.offset = r.offset → r'.size = r.size →
      r'.pos = r.pos → r.rest = raw ++ newline :: rest →
      Host.left { h with phase := .reading (take lineOf r' raw) } < h.left := by
    intro r' raw rest hoffset hsize hpos' hrest
    have hlen := congrArg List.length hrest
    simp only [List.length_append, List.length_cons] at hlen
    rw [hleft]
    simp only [Host.left, take, hoffset, hsize, hpos']
    rw [if_neg (by omega)]
    split_ifs <;> omega
  unfold lineStep
  dsimp only
  split_ifs with hnil hflush hstop hfull hcommits
  · rw [flush_phase, hleft]
    have := hr.moved hnil
    simp only [Host.left]
    rw [if_neg (by omega)]
    omega
  · exact hpos
  · exact hpos
  · obtain hempty | ⟨raw, rest, hraw, hrest, -⟩ := hr.ends.cases
    · exact absurd hempty hnil
    · have hhead : r.rest.takeWhile (· != newline) = raw := by rw [hrest, takeWhile_record hraw]
      rw [flush_phase, hhead]
      exact htake rfl rfl rfl hrest
  · exact hpos
  · obtain hempty | ⟨raw, rest, hraw, hrest, -⟩ := hr.ends.cases
    · exact absurd hempty hnil
    · have hhead : r.rest.takeWhile (· != newline) = raw := by rw [hrest, takeWhile_record hraw]
      rw [hhead]
      exact htake rfl rfl rfl hrest

theorem turn_left (hread : 1 ≤ o.maxReadBytes) {h t : Host L} {a : Action}
    (hx : Exact o lineOf h) (ha : a.turn = true) (hs : step o lineOf h a = some t) :
    t.left < h.left := by
  cases a with
  | read =>
    simp only [step] at hs
    split at hs
    · next offset size hphase =>
      have hp := hx.phase
      rw [hphase] at hp
      have hleft : h.left = 3 * (size - offset) + 1 := by
        unfold Host.left
        rw [hphase]
      rw [hleft]
      split at hs
      · next hgo =>
        obtain rfl := Option.some.inj hs
        exact readFrom_left hread hp.1 hgo.1
      · obtain rfl := Option.some.inj hs
        exact Nat.succ_pos _
    · cases hs
  | line commits =>
    simp only [step] at hs
    split at hs
    · next r hphase =>
      have hp := hx.phase
      rw [hphase] at hp
      obtain rfl := Option.some.inj hs
      exact lineStep_left hphase hp commits
    · cases hs
  | append more => cases ha
  | process => cases ha
  | stop => cases ha
  | restart => cases ha

/-- The loops end. -/
theorem turns_bounded (hread : 1 ≤ o.maxReadBytes) {h t : Host L} (hx : Exact o lineOf h)
    {as : List Action} (has : ∀ a ∈ as, a.turn = true)
    (hr : run (step o lineOf) h as = some t) : as.length ≤ h.left := by
  induction as generalizing h with
  | nil => exact Nat.zero_le _
  | cons a as ih =>
    obtain ⟨u, hu, hrest⟩ := run_cons hr
    have hlt := turn_left hread hx (has a List.mem_cons_self) hu
    have hnext := ih (step_exact hread h a u hx hu) (fun b hb => has b (List.mem_cons_of_mem _ hb))
      hrest
    rw [List.length_cons]
    omega

/-- A run that nothing stops: at its end no complete line is left. -/
def CatchUp (h : Host L) : Phase L → Prop
  | .idle => newline ∉ h.content.drop (h.done.getD 0)
  | .scanning offset size => size = h.content.length ∧ h.done.getD 0 = offset
  | .reading r => r.size = h.content.length

theorem readFrom_catchUp {h : Host L} (hread : 1 ≤ o.maxReadBytes) {offset : ℕ}
    (hdone : h.done.getD 0 = offset) (hlt : offset < h.content.length) :
    CatchUp (readFrom o h offset h.content.length)
      (readFrom o h offset h.content.length).phase := by
  unfold readFrom
  dsimp only
  set want := min (h.content.length - offset) o.maxReadBytes with hwant
  set buf := (h.content.drop offset).take want with hbuf
  have hlen : buf.length = want := by
    rw [hbuf, List.length_take, List.length_drop]
    omega
  have hsplit : h.content.drop offset = buf ++ h.content.drop (offset + buf.length) := by
    rw [hlen, ← List.drop_drop, hbuf, List.take_append_drop]
  split_ifs with hnil hshort
  · have hnot : newline ∉ buf := by
      intro hmem
      have hall := List.rdropWhile_eq_nil_iff.mp hnil newline hmem
      simp at hall
    change newline ∉ h.content.drop (h.done.getD 0)
    rw [hdone, hsplit, List.drop_eq_nil_of_le hshort, List.append_nil]
    exact hnot
  · have hnot : newline ∉ buf := by
      intro hmem
      have hall := List.rdropWhile_eq_nil_iff.mp hnil newline hmem
      simp at hall
    obtain ⟨-, hnone⟩ := findNewline_spec hread (le_refl h.content.length) h.content.length
      (offset + buf.length) (by omega)
    split
    · next hfind =>
      have hrest := hnone hfind
      rw [List.take_length] at hrest
      change newline ∉ h.content.drop (h.done.getD 0)
      rw [hdone, hsplit, List.mem_append, not_or]
      exact ⟨hnot, hrest⟩
    · split_ifs
      · exact ⟨rfl, rfl⟩
      · exact rfl
  · exact rfl

theorem flush_content (h : Host L) (lines : List L) (stop : ℕ) :
    (HostIngest.flush h lines stop).content = h.content ∧
      (HostIngest.flush h lines stop).done = some stop ∧
      (HostIngest.flush h lines stop).stopped = h.stopped := by
  unfold HostIngest.flush
  split_ifs <;> exact ⟨rfl, rfl, rfl⟩

theorem lineStep_catchUp {h : Host L} {r : Reading L} (hstop : h.stopped = false)
    (hsize : r.size = h.content.length) :
    CatchUp (lineStep o lineOf h r true) (lineStep o lineOf h r true).phase ∧
      (lineStep o lineOf h r true).content = h.content ∧
      (lineStep o lineOf h r true).stopped = false := by
  obtain ⟨hcontent, hdone, hstopped⟩ := flush_content h r.lines (r.offset + r.pos)
  unfold lineStep
  dsimp only
  split_ifs with hnil hflush hs hfull hcommits
  · refine ⟨⟨?_, ?_⟩, hcontent, hstopped.trans hstop⟩
    · change r.size = (HostIngest.flush h r.lines (r.offset + r.pos)).content.length
      rw [hcontent, hsize]
    · change (HostIngest.flush h r.lines (r.offset + r.pos)).done.getD 0 = _
      rw [hdone]
      rfl
  · exact absurd (.inr rfl) hflush
  · rw [hstop] at hs
    cases hs
  · refine ⟨?_, hcontent, hstopped.trans hstop⟩
    change r.size = (HostIngest.flush h r.lines (r.offset + r.pos)).content.length
    rw [hcontent, hsize]
  · exact absurd rfl hcommits
  · exact ⟨hsize, rfl, hstop⟩

theorem readFrom_frame (h : Host L) (offset size : ℕ) :
    (readFrom o h offset size).content = h.content ∧
      (readFrom o h offset size).stopped = h.stopped ∧
      (readFrom o h offset size).committed = h.committed := by
  unfold readFrom
  dsimp only
  split_ifs
  · exact ⟨rfl, rfl, rfl⟩
  · split
    · exact ⟨rfl, rfl, rfl⟩
    · split_ifs <;> exact ⟨rfl, rfl, rfl⟩
  · exact ⟨rfl, rfl, rfl⟩

/-- One turn of a run that nothing stops. -/
theorem catchUp_turn (hread : 1 ≤ o.maxReadBytes) {h : Host L}
    (hstop : h.stopped = false) (hc : CatchUp h h.phase) (hphase : h.phase ≠ .idle) :
    ∃ a t, (a = .read ∨ a = .line true) ∧ step o lineOf h a = some t ∧ t.content = h.content ∧
      t.stopped = false ∧ CatchUp t t.phase := by
  cases hp : h.phase with
  | idle => exact absurd hp hphase
  | scanning offset size =>
    rw [hp] at hc
    obtain ⟨hsize, hdone⟩ := hc
    by_cases hlt : offset < size
    · obtain ⟨hcontent, hstopped, -⟩ := readFrom_frame (o := o) h offset size
      have hcatch : CatchUp (readFrom o h offset size) (readFrom o h offset size).phase := by
        rw [hsize]
        exact readFrom_catchUp hread hdone (hsize ▸ hlt)
      refine ⟨.read, _, .inl rfl, ?_, hcontent, hstopped.trans hstop, hcatch⟩
      simp only [step, hp]
      rw [if_pos ⟨hlt, by simp [hstop]⟩]
    · refine ⟨.read, { h with phase := .idle }, .inl rfl, ?_, rfl, hstop, ?_⟩
      · simp only [step, hp]
        rw [if_neg fun hgo => hlt hgo.1]
      · change newline ∉ h.content.drop (h.done.getD 0)
        rw [hdone, List.drop_eq_nil_of_le (by omega)]
        simp
  | reading r =>
    rw [hp] at hc
    obtain ⟨hcatch, hcontent, hstopped⟩ := @lineStep_catchUp _ o lineOf _ _ hstop hc
    refine ⟨.line true, _, .inr rfl, ?_, hcontent, hstopped, hcatch⟩
    simp only [step, hp]

/-- From inside a run that nothing stops, the loops go on to their end. -/
theorem catchUp_run (hread : 1 ≤ o.maxReadBytes) {h : Host L} (hx : Exact o lineOf h)
    (hstop : h.stopped = false) (hc : CatchUp h h.phase) :
    ∃ as t, (∀ a ∈ as, a = .read ∨ a = .line true) ∧ run (step o lineOf) h as = some t ∧
      t.phase = .idle ∧ t.content = h.content ∧ CatchUp t .idle ∧ Exact o lineOf t := by
  induction hn : h.left using Nat.strong_induction_on generalizing h with
  | _ n ih =>
    by_cases hidle : h.phase = .idle
    · rw [hidle] at hc
      exact ⟨[], h, by simp, rfl, hidle, rfl, hc, hx⟩
    · obtain ⟨a, u, ha, hu, hcontent, hstopped, hcatch⟩ := catchUp_turn hread hstop hc hidle
      have hturn : a.turn = true := by
        rcases ha with rfl | rfl <;> rfl
      have hlt := turn_left hread hx hturn hu
      obtain ⟨as, t, has, hrun, hend, hsame, hdone, hexact⟩ :=
        ih u.left (hn ▸ hlt) (step_exact hread h a u hx hu) hstopped hcatch rfl
      refine ⟨a :: as, t, ?_, ?_, hend, hsame.trans hcontent, hdone, hexact⟩
      · intro b hb
        rcases List.mem_cons.mp hb with rfl | hb
        · exact ha
        · exact has b hb
      · simp only [run, hu]
        exact hrun

theorem kept_of_caught {t : Host L} (hx : Exact o lineOf t)
    (hcaught : newline ∉ t.content.drop (t.done.getD 0)) :
    kept o lineOf t.content = t.committed := by
  have hsplit := List.take_append_drop (t.done.getD 0) t.content
  rw [← hsplit, kept_append hx.done.boundary, hx.done.lines]
  unfold kept
  rw [complete_of_notMem hcaught]
  simp

/-- The lines that the size cap lets through. -/
def expected (o : Options) (lineOf : Bytes → Option L) (content : Bytes) : List L :=
  (complete newline content).filterMap fun raw =>
    if o.maxLineBytes < raw.length + 1 then none else lineOf raw

/-- No line over the size cap fits into one read. -/
def Capped (o : Options) (lineOf : Bytes → Option L) (content : Bytes) : Prop :=
  ∀ raw ∈ complete newline content, (lineOf raw).isSome → o.maxLineBytes < raw.length + 1 →
    o.maxReadBytes < raw.length + 1

theorem kept_eq_expected {content : Bytes} (h : Capped o lineOf content) :
    kept o lineOf content = expected o lineOf content := by
  refine List.filterMap_congr fun raw hraw => ?_
  cases hl : lineOf raw with
  | none => simp
  | some l =>
    have hcap := h raw hraw (by simp [hl])
    unfold keeps
    by_cases hlong : o.maxLineBytes < raw.length + 1
    · have hread := hcap hlong
      have hnot : ¬ raw.length + 1 ≤ o.maxReadBytes ∧ ¬ raw.length + 1 ≤ o.maxLineBytes := by omega
      simp [hlong, hnot]
    · have hle : raw.length + 1 ≤ o.maxLineBytes := by omega
      simp [hlong, hle]

theorem Capped.take {content : Bytes} (h : Capped o lineOf content) {m : ℕ}
    (hm : Boundary newline (content.take m)) : Capped o lineOf (content.take m) := by
  intro raw hraw
  refine h raw ?_
  rw [← List.take_append_drop m content, complete_append hm]
  exact List.mem_append_left _ hraw

/-- Each line goes into one committed transaction, in the order of the file. Nothing is committed
beyond the stored offset, and a run that nothing stops commits all the complete lines. -/
theorem lines_committed_once (hread : 1 ≤ o.maxReadBytes) {as : List Action} {h : Host L}
    (hr : run (step o lineOf) (start L) as = some h) (hcap : Capped o lineOf h.content) :
    h.persisted.getD 0 ≤ h.content.length ∧
    Boundary newline (h.content.take (h.persisted.getD 0)) ∧
    h.committed = expected o lineOf (h.content.take (h.persisted.getD 0)) ∧
    (∀ bs t, (∀ b ∈ bs, b.turn = true) → run (step o lineOf) h bs = some t →
      bs.length ≤ h.left) ∧
    (h.phase = .idle → h.stopped = false →
      ∃ bs t, (∀ b ∈ bs, b = .read ∨ b = .line true) ∧
        run (step o lineOf) h (.process :: bs) = some t ∧ t.phase = .idle ∧
        t.content = h.content ∧ t.committed = expected o lineOf h.content) := by
  have hx := reachable_exact hread hr
  refine ⟨hx.persisted.le, hx.persisted.boundary, ?_, ?_, ?_⟩
  · rw [← hx.persisted.lines, kept_eq_expected (hcap.take hx.persisted.boundary)]
  · intro bs t hbs hrun
    exact turns_bounded hread hx hbs hrun
  · intro hidle hstop
    have hstart : step o lineOf h .process =
        some { h with phase := .scanning (h.done.getD 0) h.content.length } := by
      simp only [step, hidle, hstop, Nat.not_lt.mpr hx.done.le, if_false, Bool.false_eq_true]
    obtain ⟨bs, t, hbs, hrun, hend, hcontent, hcaught, hexact⟩ :=
      catchUp_run hread (step_exact hread h .process _ hx hstart) hstop ⟨rfl, rfl⟩
    refine ⟨bs, t, hbs, ?_, hend, hcontent, ?_⟩
    · simp only [run, hstart]
      exact hrun
    · rw [← kept_of_caught hexact hcaught, hcontent, kept_eq_expected hcap]

def exLineOf (raw : Bytes) : Option Bytes := if raw = [] then none else some raw

/-- Three reads: the end of the second line comes after the first one. -/
def exRun : List Action :=
  [.append [97, 10, 98, 99], .process, .read, .line true, .line true, .read,
    .append [100, 101, 10, 10], .process, .read, .line true, .line true, .read, .line true,
    .line true, .read]

def exHost : Host Bytes :=
  ⟨[97, 10, 98, 99, 100, 101, 10, 10], some 8, some 7, [[97], [98, 99, 100, 101]], false, .idle⟩

theorem lines_committed_once_threeReads :
    run (step ⟨3, 8, 4⟩ exLineOf) (start Bytes) exRun = some exHost ∧
    exHost.committed = expected ⟨3, 8, 4⟩ exLineOf (exHost.content.take 7) := by
  have hr : run (step ⟨3, 8, 4⟩ exLineOf) (start Bytes) exRun = some exHost := by decide +kernel
  have hcap : Capped ⟨3, 8, 4⟩ exLineOf exHost.content := by
    intro raw hraw
    have hlong : ∀ raw ∈ complete newline exHost.content, ¬ 8 < raw.length + 1 := by decide +kernel
    exact fun _ hlt => absurd hlt (hlong raw hraw)
  exact ⟨hr, (lines_committed_once (by decide) hr hcap).2.2.1⟩

/-- A line over the size cap that fits into one read is committed. -/
theorem long_line_committed :
    ∃ h, run (step ⟨8, 2, 4⟩ exLineOf) (start Bytes)
        [.append [97, 98, 99, 10], .process, .read, .line true, .line true] = some h ∧
      h.committed = [[97, 98, 99]] ∧
      expected ⟨8, 2, 4⟩ exLineOf (h.content.take (h.persisted.getD 0)) = [] := by
  refine ⟨⟨[97, 98, 99, 10], some 4, some 4, [[97, 98, 99]], false, .scanning 4 4⟩, ?_⟩
  decide +kernel

end ClaudeFleet.HostIngest
