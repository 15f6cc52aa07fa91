import ClaudeFleet.StoreImport

/-! An import that returns `copied` holds the file's rows once each. Only a fingerprint that is
still the file's speaks for the rows copied under it, so every invariant is about the run whose
fingerprint is the current one. -/
namespace ClaudeFleet.StoreImport
open Keyset Transition

variable {C : Config}

/-- The rows of a table up to a mark; the copy begins after rowid 0. -/
def File.span (f : File) (t : String) (last : ℤ) : List Row :=
  upto Row.rowid ((f.rows t).filter fun r => 0 < r.rowid) (some last)

/-- Postgres holds exactly the rows of the table, and its sequences are past them. -/
structure Whole (C : Config) (f : File) (p : Pg) (t : String) : Prop where
  rows : ((p.rows t).map (C.codec.got (C.shared f t))).Perm
    ((f.rows t).map (C.codec.want t (C.shared f t)))
  seq : ∀ c ∈ C.pgCols t, c.identity = true →
    (∀ r ∈ p.rows t, r.id c.name ≤ p.seq t c.name) ∧ f.marks t ≤ p.seq t c.name

/-- Postgres holds exactly the rows up to a mark. -/
structure Copied (C : Config) (f : File) (p : Pg) (t : String) (last : ℤ) : Prop where
  from_zero : 0 ≤ last
  rows : ((p.rows t).map (C.codec.got (C.shared f t))).Perm
    ((f.span t last).map (C.codec.want t (C.shared f t)))

/-- Postgres holds of the table what its progress row says. -/
def Consistent (C : Config) (f : File) (p : Pg) (t : String) : Prop :=
  match p.progress t with
  | none => p.rows t = []
  | some q => Copied C f p t q.lastRowid ∧ (q.done = true → Whole C f p t)

theorem File.rows_nodup (f : File) (t : String) : ((f.rows t).map Row.rowid).Nodup := by
  unfold File.rows
  cases h : f.tables t with
  | none => exact List.nodup_nil
  | some rows => exact f.rowids t rows h

theorem span_zero (f : File) (t : String) : f.span t 0 = [] := by
  rw [File.span, upto, List.filter_eq_nil_iff]
  intro r hr
  simpa [Beyond] using (List.mem_filter.mp hr).2

/-- A table not yet begun is one copied up to rowid 0. -/
theorem Consistent.copied {f : File} {p : Pg} {t : String} (h : Consistent C f p t) :
    Copied C f p t (((p.progress t).map Progress.lastRowid).getD 0) := by
  unfold Consistent at h
  split at h
  · next hp =>
    rw [hp]
    exact ⟨le_rfl, by simp [h, span_zero]⟩
  · next q hp =>
    rw [hp]
    exact h.1

theorem Consistent.whole {f : File} {p : Pg} {t : String} (h : Consistent C f p t)
    (hdone : (p.progress t).any Progress.done = true) : Whole C f p t := by
  unfold Consistent at h
  split at h
  · next hp =>
    rw [hp] at hdone
    cases hdone
  · next q hp =>
    rw [hp] at hdone
    exact h.2 hdone

/-- The next page carries the copy on to its last rowid. -/
theorem Copied.page {f : File} {p p' : Pg} {t : String} {last : ℤ} {n : ℕ} {r : Row}
    (h : Copied C f p t last) (stored : List PgRow) (hr : (f.page t last n).getLast? = some r)
    (hrows : p'.rows t = p.rows t ++ stored)
    (hstored : (stored.map (C.codec.got (C.shared f t))).Perm
      ((f.page t last n).map (C.codec.want t (C.shared f t)))) :
    Copied C f p' t r.rowid := by
  have hlast : last < r.rowid := (fetch_last hr).1 last rfl
  have hpage : (f.page t last n).Perm
      (between Row.rowid ((f.rows t).filter fun r => 0 < r.rowid) (some last) r.rowid) := by
    refine (fetch_perm hr (.inl (f.rows_nodup t))).trans (List.Perm.of_eq ?_)
    rw [between, between, List.filter_filter]
    refine List.filter_congr fun a _ => ?_
    rw [← Bool.decide_and, decide_eq_decide]
    constructor
    · intro ha
      exact ⟨ha, h.from_zero.trans_lt (ha.1 last rfl)⟩
    · exact And.left
  refine ⟨h.from_zero.trans hlast.le, ?_⟩
  rw [hrows, List.map_append]
  refine (h.rows.append (hstored.trans (hpage.map _))).trans ?_
  rw [← List.map_append]
  refine (upto_append_between ?_).map _
  intro l hl
  cases hl
  exact hlast

/-- The count check: a part of the table as long as the table is the table. -/
theorem Copied.all {f : File} {p : Pg} {t : String} {last : ℤ} (h : Copied C f p t last)
    (hlen : (p.rows t).length = (f.rows t).length) :
    ((p.rows t).map (C.codec.got (C.shared f t))).Perm
      ((f.rows t).map (C.codec.want t (C.shared f t))) := by
  have hsub : (f.span t last).Sublist (f.rows t) :=
    List.filter_sublist.trans List.filter_sublist
  have hspan : (f.span t last).length = (p.rows t).length := by
    have := h.rows.length_eq
    rw [List.length_map, List.length_map] at this
    exact this.symm
  have heq : f.span t last = f.rows t := hsub.eq_of_length (hspan.trans hlen)
  have hrows := h.rows
  rw [heq] at hrows
  exact hrows

theorem le_foldl_max (xs : List ℤ) (x : ℤ) : x ≤ xs.foldl max x := by
  induction xs generalizing x with
  | nil => exact le_rfl
  | cons y xs ih => exact (le_max_left x y).trans (ih (max x y))

theorem mem_le_foldl_max {xs : List ℤ} {x y : ℤ} (h : y ∈ xs) : y ≤ xs.foldl max x := by
  induction xs generalizing x with
  | nil => cases h
  | cons z xs ih =>
    rcases List.mem_cons.mp h with rfl | h
    · exact (le_max_right x y).trans (le_foldl_max xs (max x y))
    · exact ih h

/-- `setval` leaves every identity sequence of the table at its greatest id or beyond. -/
theorem seal_seq (C : Config) (p : Pg) (t : String) (mark : ℤ) (q : Progress) {c : Column}
    (hc : c ∈ C.pgCols t) (hid : c.identity = true) :
    (∀ r ∈ p.rows t, r.id c.name ≤ (p.seal C t mark q).seq t c.name) ∧
      mark ≤ (p.seal C t mark q).seq t c.name := by
  have hfind : ∃ c', (C.pgCols t).find? (fun c' => c'.name = c.name ∧ c'.identity) = some c' ∧
      c'.name = c.name := by
    cases h : (C.pgCols t).find? fun c' => c'.name = c.name ∧ c'.identity with
    | none =>
      rw [List.find?_eq_none] at h
      exact absurd (decide_eq_true ⟨rfl, hid⟩) (h c hc)
    | some c' =>
      have hp := List.find?_some h
      exact ⟨c', rfl, (of_decide_eq_true hp).1⟩
  obtain ⟨c', hfind, hname⟩ := hfind
  have hseq : (p.seal C t mark q).seq t c.name = max (p.highest t c' mark) 1 := by
    simp only [Pg.seal, Function.update_self, hfind]
  rw [hseq]
  constructor
  · intro r hr
    refine le_trans ?_ (le_max_left _ _)
    refine le_trans ?_ (le_max_left _ _)
    rw [hname]
    exact mem_le_foldl_max (List.mem_map_of_mem hr)
  · exact (le_max_right _ _).trans (le_max_left _ _)

/-- The fingerprint is none of a later file. -/
def Past (C : Config) (s : State) (fp : String) : Prop :=
  ∀ v, s.version < v → fp ≠ C.fingerprint v

/-- The fingerprint is the file's. -/
def Aligned (C : Config) (s : State) (fp : String) : Prop := fp = C.fingerprint s.version

theorem Aligned.past {s : State} {fp : String} (hinj : Function.Injective C.fingerprint)
    (h : Aligned C s fp) : Past C s fp := by
  intro v hv heq
  rw [h] at heq
  exact absurd (hinj heq) hv.ne

/-- The run is in progress under a fingerprint, and the tables `before` are done. -/
structure Working (C : Config) (s : State) (fp : String) (before ts : List String) : Prop where
  run : s.pg.run = some ⟨fp, false⟩
  tables : C.tables = before ++ ts
  done : ∀ t ∈ before, (s.pg.progress t).any Progress.done = true

/-- The table an attempt is in the middle of. -/
structure Copying (C : Config) (s : State) (c : Cursor) : Prop where
  working : ∃ before, Working C s c.fingerprint before (c.table :: c.rest)
  undone : (s.pg.progress c.table).any Progress.done = false
  last : c.last = ((s.pg.progress c.table).map Progress.lastRowid).getD 0
  read : Aligned C s c.fingerprint → ∀ f, s.file = some f →
    c.total = (f.rows c.table).length ∧ c.cols = C.shared f c.table

/-- Postgres holds the file as it was after `v` writes. -/
structure Settled (C : Config) (s : State) (f : File) (v : ℕ) : Prop where
  version : v ≤ s.version
  current : v = s.version → s.file = some f
  whole : ∀ t ∈ C.tables, Whole C f s.pg t

/-- Where the attempt stands. -/
def Stands (C : Config) (s : State) : Prop :=
  match s.pc with
  | .idle | .returned _ | .threw _ => True
  | .reading fp => Past C s fp
  | .probing fp ts => s.pg.run = none ∧ Past C s fp ∧
    ∃ before, C.tables = before ++ ts ∧ ∀ t ∈ before, s.pg.rows t = []
  | .inserting fp => s.pg.run = none ∧ Past C s fp ∧ ∀ t ∈ C.tables, s.pg.rows t = []
  | .restarting fp _ => Past C s fp ∧ ∃ r, s.pg.run = some r ∧ r.finished = false
  | .table fp _ ts => ∃ before, Working C s fp before ts
  | .looking fp _ t ts _ total => (∃ before, Working C s fp before (t :: ts)) ∧
    (Aligned C s fp → ∀ f, s.file = some f → total = (f.rows t).length)
  | .paging c => Copying C s c
  | .storing c page => Copying C s c ∧ page ≠ [] ∧
    (Aligned C s c.fingerprint → ∀ f, s.file = some f → ∃ n, page = f.page c.table c.last n)
  | .sealing c mark => Copying C s c ∧
    (Aligned C s c.fingerprint → ∀ f, s.file = some f → mark = f.marks c.table)
  | .finishing f v => s.pg.run = some ⟨C.fingerprint v, false⟩ ∧ Settled C s f v
  | .copied f v => Settled C s f v

structure Importing (C : Config) (s : State) : Prop where
  past : ∀ r, s.pg.run = some r → r.finished = false → Past C s r.fingerprint
  fresh : s.pg.run = none → ∀ t ∈ C.tables, s.pg.progress t = none
  consistent : ∀ r, s.pg.run = some r → r.finished = false → Aligned C s r.fingerprint →
    ∀ f, s.file = some f → ∀ t ∈ C.tables, Consistent C f s.pg t
  stands : Stands C s

/-- Only the attempt moves. -/
theorem Importing.goto {s : State} {pc : Pc} (h : Importing C s)
    (hstands : Stands C (s.goto pc)) : Importing C (s.goto pc) :=
  ⟨h.past, h.fresh, h.consistent, hstands⟩

theorem Working.goto {s : State} {fp : String} {before ts : List String}
    (h : Working C s fp before ts) (pc : Pc) : Working C (s.goto pc) fp before ts :=
  ⟨h.run, h.tables, h.done⟩

theorem Copying.goto {s : State} {c : Cursor} (h : Copying C s c) (pc : Pc) :
    Copying C (s.goto pc) c := by
  obtain ⟨before, hwork⟩ := h.working
  exact ⟨⟨before, hwork.goto pc⟩, h.undone, h.last, h.read⟩

theorem Working.next {s : State} {fp t : String} {before ts : List String}
    (h : Working C s fp before (t :: ts)) (hdone : (s.pg.progress t).any Progress.done = true) :
    Working C s fp (before ++ [t]) ts := by
  refine ⟨h.run, ?_, ?_⟩
  · rw [h.tables, List.append_assoc]
    rfl
  · intro u hu
    rcases List.mem_append.mp hu with hu | hu
    · exact h.done u hu
    · rw [List.mem_singleton.mp hu]
      exact hdone

theorem Working.mem {s : State} {fp t : String} {before ts : List String}
    (h : Working C s fp before (t :: ts)) : t ∈ C.tables := by
  rw [h.tables]
  simp

/-- One table of Postgres changes under a run that goes on. -/
theorem Importing.update {s s' : State} {c : Cursor} {before : List String} {q : Progress}
    (h : Importing C s) (hwork : Working C s c.fingerprint before (c.table :: c.rest))
    (hundone : (s.pg.progress c.table).any Progress.done = false)
    (hfile : s'.file = s.file) (hversion : s'.version = s.version)
    (hrun : s'.pg.run = s.pg.run)
    (hprog : s'.pg.progress = Function.update s.pg.progress c.table (some q))
    (hrows : ∀ u, u ≠ c.table → s'.pg.rows u = s.pg.rows u)
    (hseq : ∀ u, u ≠ c.table → s'.pg.seq u = s.pg.seq u)
    (hcons : Aligned C s c.fingerprint → ∀ f, s.file = some f →
      Consistent C f s.pg c.table → Consistent C f s'.pg c.table)
    (hstands : Working C s' c.fingerprint before (c.table :: c.rest) → Stands C s') :
    Importing C s' := by
  have hwork' : Working C s' c.fingerprint before (c.table :: c.rest) := by
    refine ⟨hrun.trans hwork.run, hwork.tables, fun u hu => ?_⟩
    have hold := hwork.done u hu
    rw [hprog, Function.update_of_ne]
    · exact hold
    · rintro rfl
      rw [hundone] at hold
      cases hold
  refine ⟨?_, ?_, ?_, hstands hwork'⟩
  · intro r hr hfin v hv
    rw [hrun] at hr
    exact h.past r hr hfin v (hversion ▸ hv)
  · intro hnone
    rw [hrun, hwork.run] at hnone
    cases hnone
  · intro r hr hfin hal f hf t ht
    rw [hrun] at hr
    rw [hfile] at hf
    have hal' : Aligned C s r.fingerprint := by
      unfold Aligned at hal ⊢
      rw [← hversion]
      exact hal
    have hold := h.consistent r hr hfin hal' f hf
    by_cases htc : t = c.table
    · subst htc
      obtain rfl : r = ⟨c.fingerprint, false⟩ := Option.some.inj (hr.symm.trans hwork.run)
      exact hcons hal' f hf (hold _ ht)
    · have := hold t ht
      unfold Consistent at this ⊢
      rw [hprog, Function.update_of_ne htc, hrows t htc]
      split at this
      · exact this
      · refine ⟨⟨this.1.from_zero, ?_⟩, fun hdone => ⟨?_, ?_⟩⟩
        · rw [hrows t htc]
          exact this.1.rows
        · rw [hrows t htc]
          exact (this.2 hdone).rows
        · rw [hrows t htc, hseq t htc]
          exact (this.2 hdone).seq

/-- A chunk is stored. -/
theorem Importing.store {s : State} {c : Cursor} {page : List Row} (h : Importing C s)
    (hcopy : Copying C s c) (hne : page ≠ [])
    (hread : Aligned C s c.fingerprint → ∀ f, s.file = some f →
      ∃ n, page = f.page c.table c.last n) : Importing C (C.storeChunk s c page) := by
  obtain ⟨before, hwork⟩ := hcopy.working
  obtain ⟨r, hr⟩ : ∃ r, page.getLast? = some r :=
    Option.isSome_iff_exists.mp (List.getLast?_isSome.mpr hne)
  unfold Config.storeChunk
  simp only [hr, Option.map_some, Option.getD_some]
  split_ifs with hsame
  · refine h.update (c := c) (q := ⟨r.rowid, c.copied + page.length, false⟩)
      hwork hcopy.undone rfl rfl rfl rfl ?_ (fun _ _ => rfl) ?_ ?_
    · intro u hu
      simp [Pg.insert, hu]
    · intro hal f hf hcons
      obtain ⟨n, hpage⟩ := hread hal f hf
      have hold := hcons.copied
      rw [← hcopy.last] at hold
      obtain ⟨-, hcols⟩ := hcopy.read hal f hf
      rw [hcols] at hsame
      unfold Consistent
      simp only [Pg.insert, Function.update_self]
      refine ⟨hold.page (n := n) (page.map fun a =>
        C.store c.table c.cols (C.codec.values c.table c.cols a)) (hpage ▸ hr) ?_ ?_, nofun⟩
      · simp
      · rw [← hpage, hcols]
        exact hsame
    · intro hwork'
      refine ⟨⟨before, hwork'⟩, ?_, ?_, hcopy.read⟩
      · simp [Pg.insert]
      · simp [Pg.insert]
  · exact h.goto trivial

/-- A table is done. -/
theorem Importing.sealed {s : State} {c : Cursor} {mark : ℤ} (h : Importing C s)
    (hcopy : Copying C s c) (hlen : (s.pg.rows c.table).length = c.total)
    (hread : Aligned C s c.fingerprint → ∀ f, s.file = some f → mark = f.marks c.table) :
    Importing C { s with
      pg := s.pg.seal C c.table mark ⟨c.last, c.copied, true⟩
      pc := .table c.fingerprint c.attempt c.rest } := by
  obtain ⟨before, hwork⟩ := hcopy.working
  refine h.update (c := c) (q := ⟨c.last, c.copied, true⟩) hwork hcopy.undone
    rfl rfl rfl rfl (fun _ _ => rfl) ?_ ?_ ?_
  · intro u hu
    simp [Pg.seal, hu]
  · intro hal f hf hcons
    have hold := hcons.copied
    rw [← hcopy.last] at hold
    have hrows : (s.pg.seal C c.table mark ⟨c.last, c.copied, true⟩).rows = s.pg.rows := rfl
    have hall := hold.all (hlen.trans (hcopy.read hal f hf).1)
    have hprog : (s.pg.seal C c.table mark ⟨c.last, c.copied, true⟩).progress c.table =
        some ⟨c.last, c.copied, true⟩ := by simp [Pg.seal]
    simp only [Consistent, hprog]
    refine ⟨⟨hold.from_zero, hold.rows⟩, fun _ => ⟨hall, ?_⟩⟩
    intro col hcol hid
    rw [hrows, ← hread hal f hf]
    exact seal_seq C s.pg c.table mark _ hcol hid
  · intro hwork'
    refine ⟨before ++ [c.table], hwork'.next ?_⟩
    simp [Pg.seal]

/-- The run starts over. -/
theorem importing_restart {s : State} {fp : String} {n : ℕ}
    (hpast : Past C s fp) (hrun : ∃ r, s.pg.run = some r ∧ r.finished = false) :
    Importing C { s with pg := s.pg.restart C fp, pc := .table fp n C.tables } := by
  obtain ⟨r, hr, hfin⟩ := hrun
  have hrun' : (s.pg.restart C fp).run = some ⟨fp, false⟩ := by
    simp [Pg.restart, hr, hfin]
  refine ⟨?_, fun _ _ _ => rfl, ?_, [], hrun', rfl, nofun⟩
  · intro r' hr' _
    obtain rfl := Option.some.inj (hrun'.symm.trans hr')
    exact hpast
  · intro r' _ _ _ f _ t ht
    simp [Consistent, Pg.restart, ht]

/-- The run row is written on an empty store. -/
theorem Importing.insert {s : State} {fp : String} (h : Importing C s)
    (hrun : s.pg.run = none) (hpast : Past C s fp) (hrows : ∀ t ∈ C.tables, s.pg.rows t = []) :
    Importing C { s with
      pg := { s.pg with run := some ⟨fp, false⟩ }, pc := .table fp 1 C.tables } := by
  refine ⟨?_, nofun, ?_, [], rfl, rfl, nofun⟩
  · intro r hr _
    obtain rfl := Option.some.inj hr
    exact hpast
  · intro r _ _ _ f _ t ht
    simp only [Consistent, h.fresh hrun t ht]
    exact hrows t ht

theorem advance_importing {s s' : State} (hinj : Function.Injective C.fingerprint)
    (h : Importing C s) (hs : C.advance s = some s') : Importing C s' := by
  have hstands := h.stands
  unfold Config.advance at hs
  split at hs
  · next fp f hpc hf =>
    simp only [Stands, hpc] at hstands
    split at hs
    · next hrun =>
      obtain rfl := Option.some.inj hs
      exact h.goto ⟨hrun, hstands, [], rfl, nofun⟩
    · next r hrun =>
      by_cases hfin : r.finished = true
      · rw [if_pos hfin] at hs
        obtain rfl := Option.some.inj hs
        exact h.goto trivial
      · have hopen : r.finished = false := by simpa using hfin
        rw [if_neg hfin] at hs
        obtain rfl := Option.some.inj hs
        refine h.goto ?_
        unfold Config.resume
        split_ifs with heq hexp
        · refine ⟨[], ?_, rfl, nofun⟩
          show s.pg.run = _
          rw [hrun, ← heq, ← hopen]
        · trivial
        · exact ⟨hstands, r, hrun, hopen⟩
  · next fp hpc =>
    simp only [Stands, hpc] at hstands
    obtain ⟨hrun, hpast, before, htables, hrows⟩ := hstands
    obtain rfl := Option.some.inj hs
    rw [List.append_nil] at htables
    exact h.goto ⟨hrun, hpast, fun t ht => hrows t (htables ▸ ht)⟩
  · next fp t ts hpc =>
    simp only [Stands, hpc] at hstands
    obtain ⟨hrun, hpast, before, htables, hrows⟩ := hstands
    split_ifs at hs with hempty <;> obtain rfl := Option.some.inj hs
    · refine h.goto ⟨hrun, hpast, before ++ [t], ?_, ?_⟩
      · rw [htables, List.append_assoc]
        rfl
      · intro u hu
        rcases List.mem_append.mp hu with hu | hu
        · exact hrows u hu
        · rw [List.mem_singleton.mp hu]
          exact List.isEmpty_iff.mp hempty
    · exact h.goto trivial
  · next fp hpc =>
    simp only [Stands, hpc] at hstands
    obtain rfl := Option.some.inj hs
    exact h.insert hstands.1 hstands.2.1 hstands.2.2
  · next fp n hpc =>
    simp only [Stands, hpc] at hstands
    obtain rfl := Option.some.inj hs
    exact importing_restart hstands.1 hstands.2
  · next fp n t ts f hpc hf =>
    simp only [Stands, hpc] at hstands
    obtain ⟨before, hwork⟩ := hstands
    obtain rfl := Option.some.inj hs
    refine h.goto ⟨⟨before, hwork.goto _⟩, fun _ f' hf' => ?_⟩
    obtain rfl : f = f' := Option.some.inj (hf.symm.trans hf')
    rfl
  · next fp n t ts found total f hpc hf =>
    simp only [Stands, hpc] at hstands
    obtain ⟨⟨before, hwork⟩, htotal⟩ := hstands
    simp only at hs
    split_ifs at hs with hdone <;> obtain rfl := Option.some.inj hs
    · exact h.goto ⟨before ++ [t], (hwork.next hdone).goto _⟩
    · have hundone : (s.pg.progress t).any Progress.done = false := by simpa using hdone
      refine h.goto ⟨⟨before, hwork.goto _⟩, hundone, rfl, fun hal f' hf' => ?_⟩
      obtain rfl : f = f' := Option.some.inj (hf.symm.trans hf')
      exact ⟨htotal hal f hf, rfl⟩
  · next c f hpc hf =>
    simp only [Stands, hpc] at hstands
    simp only at hs
    split_ifs at hs with hempty <;> obtain rfl := Option.some.inj hs
    · refine h.goto ⟨hstands.goto _, fun _ f' hf' => ?_⟩
      obtain rfl : f = f' := Option.some.inj (hf.symm.trans hf')
      rfl
    · have hne : Config.nextPage s f c ≠ [] := by simpa using hempty
      refine h.goto ⟨hstands.goto _, hne, fun _ f' hf' => ?_⟩
      obtain rfl : f = f' := Option.some.inj (hf.symm.trans hf')
      unfold Config.nextPage at hne ⊢
      split_ifs at hne ⊢ with hfound
      · exact ⟨_, rfl⟩
      · exact absurd rfl hne
  · next c page hpc =>
    simp only [Stands, hpc] at hstands
    obtain rfl := Option.some.inj hs
    exact h.store hstands.1 hstands.2.1 hstands.2.2
  · next c mark hpc =>
    simp only [Stands, hpc] at hstands
    simp only at hs
    split_ifs at hs with hlen <;> obtain rfl := Option.some.inj hs
    · exact h.goto trivial
    · exact h.sealed hstands.1 (not_not.mp hlen) hstands.2
  · next fp n f hpc hf =>
    simp only [Stands, hpc] at hstands
    obtain ⟨before, hwork⟩ := hstands
    have hrun := hwork.run
    split_ifs at hs with hsame hlast <;> obtain rfl := Option.some.inj hs
    · refine h.goto ⟨?_, le_rfl, fun _ => hf, fun t ht => ?_⟩
      · rw [hsame]
        exact hrun
      · have hcons := h.consistent _ hrun rfl hsame.symm f hf t ht
        refine hcons.whole (hwork.done t ?_)
        have hmem := hwork.tables ▸ ht
        simpa using hmem
    · exact h.goto trivial
    · exact h.goto ⟨Aligned.past hinj rfl, ⟨_, hrun, rfl⟩⟩
  · next f v hpc =>
    simp only [Stands, hpc] at hstands
    obtain ⟨hrun, hsettled⟩ := hstands
    obtain rfl := Option.some.inj hs
    refine ⟨?_, ?_, ?_, hsettled.version, hsettled.current, ?_⟩
    · intro r hr hfin
      simp only [hrun, Option.map_some, Option.some.injEq] at hr
      rw [← hr] at hfin
      cases hfin
    · intro hnone
      simp only [hrun, Option.map_some] at hnone
      cases hnone
    · intro r hr hfin
      simp only [hrun, Option.map_some, Option.some.injEq] at hr
      rw [← hr] at hfin
      cases hfin
    · intro t ht
      exact ⟨(hsettled.whole t ht).rows, (hsettled.whole t ht).seq⟩
  · cases hs

/-- The file after a write, or gone. -/
def State.rewritten (s : State) (file : Option File) : State :=
  { s with file := file, version := s.version + 1 }

theorem Past.rewritten {s : State} {fp : String} (h : Past C s fp) (file : Option File) :
    Past C (s.rewritten file) fp :=
  fun v hv => h v (Nat.lt_of_succ_lt hv)

/-- A fingerprint taken before a write is none of the file any more. -/
theorem Past.not_aligned {s : State} {fp : String} (h : Past C s fp) (file : Option File) :
    ¬ Aligned C (s.rewritten file) fp :=
  h (s.version + 1) (Nat.lt_succ_self _)

theorem Working.past {s : State} {fp : String} {before ts : List String} (h : Importing C s)
    (hwork : Working C s fp before ts) : Past C s fp :=
  h.past _ hwork.run rfl

theorem Working.rewritten {s : State} {fp : String} {before ts : List String}
    (hwork : Working C s fp before ts) (file : Option File) :
    Working C (s.rewritten file) fp before ts :=
  ⟨hwork.run, hwork.tables, hwork.done⟩

theorem Copying.rewritten {s : State} {c : Cursor} (h : Importing C s) (hcopy : Copying C s c)
    (file : Option File) :
    Copying C (s.rewritten file) c ∧ ¬ Aligned C (s.rewritten file) c.fingerprint := by
  obtain ⟨before, hwork⟩ := hcopy.working
  have hstale := (hwork.past h).not_aligned file
  exact ⟨⟨⟨before, hwork.rewritten file⟩, hcopy.undone, hcopy.last, fun hal => absurd hal hstale⟩,
    hstale⟩

theorem Settled.rewritten {s : State} {f : File} {v : ℕ} (h : Settled C s f v)
    (file : Option File) : Settled C (s.rewritten file) f v := by
  refine ⟨Nat.le_succ_of_le h.version, ?_, h.whole⟩
  intro heq
  have hlt : s.version < v := heq ▸ Nat.lt_succ_self s.version
  exact absurd h.version hlt.not_ge

/-- A write leaves every promise about the file behind. -/
theorem Importing.rewritten {s : State} (h : Importing C s) (file : Option File) :
    Importing C (s.rewritten file) := by
  refine ⟨fun r hr hfin => (h.past r hr hfin).rewritten file, h.fresh, ?_, ?_⟩
  · intro r hr hfin hal
    exact absurd hal ((h.past r hr hfin).not_aligned file)
  · have hstands := h.stands
    have hpc : (s.rewritten file).pc = s.pc := rfl
    unfold Stands at hstands ⊢
    rw [hpc]
    cases hs : s.pc <;> simp only [hs] at hstands ⊢
    case reading => exact hstands.rewritten file
    case probing => exact ⟨hstands.1, hstands.2.1.rewritten file, hstands.2.2⟩
    case inserting => exact ⟨hstands.1, hstands.2.1.rewritten file, hstands.2.2⟩
    case restarting => exact ⟨hstands.1.rewritten file, hstands.2⟩
    case table =>
      obtain ⟨before, hwork⟩ := hstands
      exact ⟨before, hwork.rewritten file⟩
    case looking =>
      obtain ⟨⟨before, hwork⟩, -⟩ := hstands
      exact ⟨⟨before, hwork.rewritten file⟩,
        fun hal => absurd hal ((hwork.past h).not_aligned file)⟩
    case paging => exact (hstands.rewritten h file).1
    case storing =>
      obtain ⟨hcopy, hne, -⟩ := hstands
      obtain ⟨hcopy', hstale⟩ := hcopy.rewritten h file
      exact ⟨hcopy', hne, fun hal => absurd hal hstale⟩
    case sealing =>
      obtain ⟨hcopy', hstale⟩ := hstands.1.rewritten h file
      exact ⟨hcopy', fun hal => absurd hal hstale⟩
    case finishing => exact ⟨hstands.1, hstands.2.rewritten file⟩
    case copied => exact hstands.rewritten file

theorem step_importing {s s' : State} {a : Action} (hinj : Function.Injective C.fingerprint)
    (h : Importing C s) (hs : C.step s a = some s') : Importing C s' := by
  cases a with
  | start maxParams =>
    simp only [Config.step] at hs
    split_ifs at hs
    obtain rfl := Option.some.inj hs
    refine ⟨h.past, h.fresh, h.consistent, ?_⟩
    unfold Stands Config.start
    cases s.file with
    | none => trivial
    | some f =>
      dsimp only
      split_ifs
      · trivial
      · trivial
      · exact Aligned.past hinj rfl
  | advance => exact advance_importing hinj h hs
  | cut =>
    obtain rfl := Option.some.inj hs
    exact h.goto trivial
  | write f =>
    obtain rfl := Option.some.inj hs
    exact h.rewritten (some f)
  | remove =>
    simp only [Config.step] at hs
    split_ifs at hs
    obtain rfl := Option.some.inj hs
    exact h.rewritten none

/-- No import of the source is under way: none was ever begun, or the last one is done, or its row
is one that no file has. -/
def Untouched (C : Config) (p : Pg) : Prop :=
  match p.run with
  | none => ∀ t ∈ C.tables, p.progress t = none
  | some r => r.finished = true ∨ ∀ v, r.fingerprint ≠ C.fingerprint v

theorem Untouched.importing {file : Option File} {p : Pg} (h : Untouched C p) :
    Importing C { file := file, pg := p } := by
  unfold Untouched at h
  refine ⟨?_, ?_, ?_, trivial⟩
  · intro r hr hfin v _
    simp only at hr
    simp only [hr, hfin] at h
    exact h.resolve_left nofun v
  · intro hnone
    simp only at hnone
    simpa only [hnone] using h
  · intro r hr hfin hal
    simp only at hr
    simp only [hr, hfin] at h
    exact absurd hal (h.resolve_left nofun 0)

/-- Whatever the attempts were cut by and whatever was written to the file meanwhile: an attempt
that returns `copied` leaves the file's rows once each, as it was at the attempt's last look at the
fingerprint, and still is unless it was written since. -/
theorem import_exact (C : Config) (hinj : Function.Injective C.fingerprint) (file : Option File)
    (p : Pg) (hp : Untouched C p) (as : List Action) (s : State)
    (hrun : run C.step { file := file, pg := p } as = some s) (f : File) (v : ℕ)
    (hpc : s.pc = .copied f v) :
    (∀ t ∈ C.tables, Whole C f s.pg t) ∧ v ≤ s.version ∧ (v = s.version → s.file = some f) := by
  have h : Importing C s :=
    run_invariant (fun _ _ _ h hs => step_importing hinj h hs) hp.importing hrun
  have hstands := h.stands
  simp only [Stands, hpc] at hstands
  exact ⟨hstands.whole, hstands.version, hstands.current⟩

/-- The stored rows are the file's, cell by cell. -/
def Verbatim (C : Config) (f : File) (p : Pg) (t : String) : Prop :=
  ((p.rows t).map (C.codec.got (C.shared f t))).Perm
    ((f.rows t).map fun r =>
      (C.shared f t).map fun c => C.codec.canonicalValue c.udt (r.cell c.name))

instance (C : Config) (f : File) (p : Pg) (t : String) : Decidable (Verbatim C f p t) := by
  unfold Verbatim
  infer_instance

/-- The attempt returned `copied`, and the file meets a test. -/
def State.returns (s : State) (test : File → Bool) : Bool :=
  match s.pc with
  | .copied _ _ => s.file.any test
  | _ => false

theorem State.returns_copied {s : State} {test : File → Bool} (h : s.returns test = true) :
    ∃ f v g, s.pc = .copied f v ∧ s.file = some g ∧ test g = true := by
  unfold State.returns at h
  split at h
  · next f v hpc =>
    obtain ⟨g, hg, htest⟩ := (Option.any_eq_true _ _).mp h
    exact ⟨f, v, g, hpc, hg, htest⟩
  · cases h

/-- The deflated bytes of an empty object. -/
def deflated : List UInt8 := [120, 156, 171, 174, 5, 0, 1, 117, 0, 249]

def sampleCodec : Codec where
  utf8 bytes := String.ofList (bytes.map fun b => Char.ofNat b.toNat)
  number
    | .int n => toString n
    | .real text => text
    | _ => "NaN"
  vector _ := ""
  decodeVector _ := "[]"
  inflate bytes := if bytes = deflated then some "\x7b\x7d" else none

def eventsImport : Config where
  codec := sampleCodec
  path := "state.db"
  basename := "state.db"
  tables := ["events"]
  isState := true
  expectedVersion := 1
  pgCols _ := [⟨"id", "int8", true⟩, ⟨"raw_jsonl", "text", false⟩, ⟨"raw_z", "bytea", false⟩]
  fingerprint n := String.ofList (List.replicate n '+')
  pgFingerprint _ := ""
  store _ cols values :=
    { cell name := ((cols.zip values).find? fun p => p.1.name = name).bind fun p =>
        sampleCodec.canonicalValue p.1.udt p.2
      id name := match (cols.zip values).find? fun p => p.1.name = name with
        | some (_, .int n) => n
        | _ => 0 }

theorem eventsImport_fingerprint : Function.Injective eventsImport.fingerprint := by
  intro m n h
  have hlists : List.replicate m '+' = List.replicate n '+' := String.ofList_injective h
  simpa using congrArg List.length hlists

def event (id : ℤ) (line : String) (z : Value) : Row :=
  ⟨id, fun name =>
    if name = "id" then .int id else if name = "raw_jsonl" then .text line else if name = "raw_z"
    then z else .null⟩

def eventsFile (rows : List Row) (h : (rows.map Row.rowid).Nodup) : File where
  userVersion := 1
  columns _ := ["id", "raw_jsonl", "raw_z"]
  tables t := if t = "events" then some rows else none
  marks _ := 7
  rowids t found hfound := by
    split_ifs at hfound
    obtain rfl := Option.some.inj hfound
    exact h

def plainEvents : File :=
  eventsFile [event 1 "a" .null, event 2 "b" .null] (by decide)

def deflatedEvent : File := eventsFile [event 1 "" (.blob deflated)] (by decide)

/-- Cut after the first of two chunks, resumed, and the file written once more after the last look
at its fingerprint. -/
def lateWrite : List Action :=
  ([.start (some 3)] : List Action) ++ (List.replicate 8 .advance : List Action) ++
    ([.cut, .start none] : List Action) ++ (List.replicate 8 .advance : List Action) ++
    ([.write deflatedEvent, .advance] : List Action)


def undisturbed : List Action := .start none :: List.replicate 12 .advance

theorem import_exact_late :
    (run eventsImport.step { file := some plainEvents } lateWrite).any
        (fun s => s.returns fun _ =>
          (s.pg.rows "events").length == 2 && s.pg.seq "events" "id" == 7) = true ∧
    ∀ s f v, run eventsImport.step { file := some plainEvents } lateWrite = some s →
      s.pc = .copied f v → (∀ t ∈ eventsImport.tables, Whole eventsImport f s.pg t) ∧
        v ≤ s.version ∧ (v = s.version → s.file = some f) :=
  ⟨by decide +kernel, fun s f v hrun hpc =>
    import_exact eventsImport eventsImport_fingerprint (some plainEvents) {} (fun _ _ => rfl)
      lateWrite s hrun f v hpc⟩

/-- A copy need not be of the file as it is at the return, nor equal to it cell by cell: a write
after the last look at the fingerprint is not seen, and a deflated line is stored inflated. -/
theorem import_not_verbatim :
    (∃ s f v g, run eventsImport.step { file := some plainEvents } lateWrite = some s ∧
      s.pc = .copied f v ∧ s.file = some g ∧
      (s.pg.rows "events").length ≠ (g.rows "events").length) ∧
    ∃ s f v g, run eventsImport.step { file := some deflatedEvent } undisturbed = some s ∧
      s.pc = .copied f v ∧ s.file = some g ∧ ¬ Verbatim eventsImport g s.pg "events" := by
  constructor
  · have h : (run eventsImport.step { file := some plainEvents } lateWrite).any (fun s =>
        s.returns fun g => (s.pg.rows "events").length != (g.rows "events").length) = true := by
      decide +kernel
    obtain ⟨s, hrun, hs⟩ := (Option.any_eq_true _ _).mp h
    obtain ⟨f, v, g, hpc, hg, hne⟩ := State.returns_copied hs
    exact ⟨s, f, v, g, hrun, hpc, hg, by simpa using hne⟩
  · have h : (run eventsImport.step { file := some deflatedEvent } undisturbed).any (fun s =>
        s.returns fun g => !decide (Verbatim eventsImport g s.pg "events")) = true := by
      decide +kernel
    obtain ⟨s, hrun, hs⟩ := (Option.any_eq_true _ _).mp h
    obtain ⟨f, v, g, hpc, hg, hne⟩ := State.returns_copied hs
    exact ⟨s, f, v, g, hrun, hpc, hg, by simpa using hne⟩

end ClaudeFleet.StoreImport
