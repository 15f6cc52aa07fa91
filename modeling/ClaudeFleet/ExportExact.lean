import ClaudeFleet.StoreExport

/-! An export that returns has copied each row of its snapshot once, whatever attempts came before
it, and one that is not cut returns. -/
namespace ClaudeFleet.StoreExport
open Keyset Transition

variable {Row Key Out F : Type} [LinearOrder Key] {S : Schema Row Key Out}

/-- The partial copy of a table holds the rows up to its mark. -/
structure Copied (S : Schema Row Key Out) (rows : List Row) (out : List Out) (t : String)
    (p : Progress Key) : Prop where
  count : p.copied = out.length
  upto : out.Perm ((upto (S.key t) rows p.lastKey).map (S.toSqlite t))
  all : p.done = true → out.Perm (rows.map (S.toSqlite t))

/-- The file holds of table `t` what its progress row says. -/
def Faithful (c : Snapshot S) (f : File Key Out F) (t : String) : Prop :=
  match f.progress t with
  | none => f.rows t = []
  | some p => Copied S (c.rows t) (f.rows t) t p

theorem Copied.congr {rows rows' : List Row} {out : List Out} {t : String} {p : Progress Key}
    (h : Copied S rows out t p) (hrows : rows.Perm rows') : Copied S rows' out t p where
  count := h.count
  upto := h.upto.trans ((upto_perm hrows _).map _)
  all hdone := (h.all hdone).trans (hrows.map _)

theorem Faithful.congr {c c' : Snapshot S} {f : File Key Out F} {t : String}
    (h : Faithful c f t) (hrows : (c.rows t).Perm (c'.rows t)) : Faithful c' f t := by
  unfold Faithful at h ⊢
  split at h
  · exact h
  · exact h.congr hrows

/-- A table not yet begun is one with the mark before its first row. -/
theorem Faithful.copied {c : Snapshot S} {f : File Key Out F} {t : String} (h : Faithful c f t) :
    Copied S (c.rows t) (f.rows t) t
      ⟨((f.progress t).map Progress.copied).getD 0, (f.progress t).bind Progress.lastKey, false⟩ := by
  unfold Faithful at h
  split at h
  · next hp =>
    rw [h, hp]
    exact ⟨rfl, by simp [upto_none], nofun⟩
  · next p hp =>
    rw [hp]
    exact ⟨h.count, h.upto, nofun⟩

/-- A page holds all the rows between the mark before it and the one after it. -/
theorem page_perm {t : String} {rows : List Row} {chunk : ℕ} {last : Option Key} {r : Row}
    (hkeys : S.pk t = true → (rows.map (S.key t)).Nodup)
    (h : (S.page t rows chunk last).getLast? = some r) :
    (S.page t rows chunk last).Perm (between (S.key t) rows last (S.key t r)) ∧
      Beyond (S.key t) last r := by
  unfold Schema.page at h ⊢
  simp only at h ⊢
  split_ifs at h ⊢ with hwide
  · cases hlast : (fetch (S.key t) rows last chunk).getLast? with
    | none =>
      rw [widen, hlast] at h
      rw [hlast] at h
      cases h
    | some r₀ =>
      have hmem : r₀ ∈ rows := fetch_mem (List.mem_of_getLast? hlast)
      obtain ⟨r', hr', hkey⟩ := widen_getLast? (S.key t) hlast hmem
      obtain rfl : r' = r := Option.some.inj (hr'.symm.trans h)
      rw [hkey]
      refine ⟨widen_perm hlast, fun l hl => ?_⟩
      rw [hkey]
      exact (fetch_last hlast).1 l hl
  · refine ⟨fetch_perm h ?_, (fetch_last h).1⟩
    cases hpk : S.pk t with
    | true => exact .inl (hkeys hpk)
    | false => exact .inr fun hlen => hwide ⟨hpk, hlen⟩

theorem page_nil {t : String} {rows : List Row} {chunk : ℕ} {last : Option Key}
    (hchunk : 1 ≤ chunk) (h : (S.page t rows chunk last).getLast? = none) :
    upto (S.key t) rows last = rows := by
  rw [List.getLast?_eq_none_iff] at h
  refine upto_of_fetch_nil hchunk ?_
  unfold Schema.page at h
  simp only at h
  split_ifs at h with hwide
  · cases hlast : (fetch (S.key t) rows last chunk).getLast? with
    | none => exact List.getLast?_eq_none_iff.mp hlast
    | some r =>
      have hmem : r ∈ rows := fetch_mem (List.mem_of_getLast? hlast)
      obtain ⟨r', hr', -⟩ := widen_getLast? (S.key t) hlast hmem
      rw [h] at hr'
      cases hr'
  · exact h

/-- A chunk carries the copy of a table from one mark to the next. -/
theorem Copied.chunk {rows : List Row} {out : List Out} {t : String} {copied chunk : ℕ}
    {last : Option Key} {r : Row} (h : Copied S rows out t ⟨copied, last, false⟩)
    (hkeys : S.pk t = true → (rows.map (S.key t)).Nodup)
    (hr : (S.page t rows chunk last).getLast? = some r) :
    Copied S rows (out ++ (S.page t rows chunk last).map (S.toSqlite t)) t
      ⟨copied + (S.page t rows chunk last).length, some (S.key t r), false⟩ := by
  obtain ⟨hperm, hbeyond⟩ := page_perm hkeys hr
  have hcount : copied = out.length := h.count
  refine ⟨?_, ?_, nofun⟩
  · rw [List.length_append, List.length_map, ← hcount]
  · refine (h.upto.append (hperm.map _)).trans ?_
    rw [← List.map_append]
    exact (upto_append_between hbeyond).map _

/-- Once no page is left the table is copied. -/
theorem Copied.whole {rows : List Row} {out : List Out} {t : String} {copied chunk : ℕ}
    {last : Option Key} (h : Copied S rows out t ⟨copied, last, false⟩) (hchunk : 1 ≤ chunk)
    (hr : (S.page t rows chunk last).getLast? = none) :
    out.Perm (rows.map (S.toSqlite t)) := by
  have hupto := h.upto
  rw [page_nil hchunk hr] at hupto
  exact hupto

variable {fingerprint : Snapshot S → F}

/-- The file an attempt is working on: it carries the snapshot's fingerprint, and the tables
`before` are done. -/
structure Working (fingerprint : Snapshot S → F) (s : State S F) (before ts : List String) :
    Prop where
  file : ∃ f, s.file = some f ∧ f.run = some (fingerprint s.snapshot) ∧
    (∀ t ∈ S.tables, Faithful s.snapshot f t) ∧
    ∀ t ∈ before, (f.progress t).any Progress.done = true
  tables : S.tables = before ++ ts

/-- The table an attempt is in the middle of. -/
structure Paging (fingerprint : Snapshot S → F) (s : State S F) (t : String) (ts : List String)
    (copied : ℕ) (last : Option Key) : Prop where
  working : ∃ before, Working fingerprint s before (t :: ts)
  copied : ∀ f, s.file = some f → (f.progress t).any Progress.done = false ∧
    Copied S (s.snapshot.rows t) (f.rows t) t ⟨copied, last, false⟩

/-- Where the attempt stands. -/
def Stands (fingerprint : Snapshot S → F) (s : State S F) : Prop :=
  match s.pc with
  | .idle | .opening | .removed | .threw _ => True
  | .created => ∃ f, s.file = some f ∧ f.progress = (fun _ => none) ∧ f.rows = fun _ => []
  | .table ts => ∃ before, Working fingerprint s before ts
  | .paging t ts copied last => Paging fingerprint s t ts copied last
  | .sealing t ts copied last => Paging fingerprint s t ts copied last ∧
    ∀ f, s.file = some f → (f.rows t).Perm ((s.snapshot.rows t).map (S.toSqlite t))
  | .closing | .returned => ∃ f, s.file = some f ∧ f.run = none ∧
    ∀ t ∈ S.tables, (f.rows t).Perm ((s.snapshot.rows t).map (S.toSqlite t))

structure Exporting (fingerprint : Snapshot S → F) (s : State S F) : Prop where
  chunk : 1 ≤ s.chunk
  owned : ∀ f, s.file = some f → ∀ r, f.run = some r →
    ∃ c, fingerprint c = r ∧ ∀ t ∈ S.tables, Faithful c f t
  stands : Stands fingerprint s

/-- Equal fingerprints are of equal contents. -/
def Distinguishes (fingerprint : Snapshot S → F) : Prop :=
  ∀ c c', fingerprint c = fingerprint c' → ∀ t ∈ S.tables, (c.rows t).Perm (c'.rows t)

theorem Working.owned {s : State S F} {before ts : List String}
    (h : Working fingerprint s before ts) : ∀ f, s.file = some f → ∀ r, f.run = some r →
      ∃ c, fingerprint c = r ∧ ∀ t ∈ S.tables, Faithful c f t := by
  obtain ⟨f, hf, hrun, hfaith, -⟩ := h.file
  intro f' hf' r hr
  obtain rfl : f = f' := Option.some.inj (hf.symm.trans hf')
  exact ⟨s.snapshot, Option.some.inj (hrun.symm.trans hr), hfaith⟩

/-- One table of the file changes. -/
theorem Working.update {s s' : State S F} {before ts : List String} {t : String}
    {f f' : File Key Out F} (h : Working fingerprint s before (t :: ts))
    (hf : s.file = some f) (hf' : s'.file = some f') (hsnap : s'.snapshot = s.snapshot)
    (hrun : f'.run = f.run) (hprog : ∀ u, u ≠ t → f'.progress u = f.progress u)
    (hrows : ∀ u, u ≠ t → f'.rows u = f.rows u)
    (hdone : (f.progress t).any Progress.done = false) (hfaith : Faithful s.snapshot f' t) :
    Working fingerprint s' before (t :: ts) := by
  obtain ⟨f₀, hf₀, hrun₀, hfaith₀, hbefore⟩ := h.file
  obtain rfl : f₀ = f := Option.some.inj (hf₀.symm.trans hf)
  refine ⟨⟨f', hf', ?_, ?_, ?_⟩, h.tables⟩
  · rw [hrun, hsnap]
    exact hrun₀
  · intro u hu
    rw [hsnap]
    by_cases hut : u = t
    · exact hut ▸ hfaith
    · have hold := hfaith₀ u hu
      unfold Faithful at hold ⊢
      rw [hprog u hut, hrows u hut]
      exact hold
  · intro u hu
    have hold := hbefore u hu
    rw [hprog u]
    · exact hold
    · rintro rfl
      rw [hdone] at hold
      cases hold

/-- A table that is done moves to the tables before. -/
theorem Working.next {s s' : State S F} {before ts : List String} {t : String}
    (h : Working fingerprint s before (t :: ts)) (hfile : s'.file = s.file)
    (hsnap : s'.snapshot = s.snapshot)
    (hdone : ∀ f, s.file = some f → (f.progress t).any Progress.done = true) :
    Working fingerprint s' (before ++ [t]) ts := by
  obtain ⟨f, hf, hrun, hfaith, hbefore⟩ := h.file
  refine ⟨⟨f, hfile.trans hf, ?_, ?_, ?_⟩, ?_⟩
  · rw [hsnap]
    exact hrun
  · rw [hsnap]
    exact hfaith
  · intro u hu
    rcases List.mem_append.mp hu with hu | hu
    · exact hbefore u hu
    · rw [List.mem_singleton.mp hu]
      exact hdone f hf
  · rw [h.tables, List.append_assoc]
    rfl

theorem Faithful.done {c : Snapshot S} {f : File Key Out F} {t : String} (h : Faithful c f t)
    (hdone : (f.progress t).any Progress.done = true) :
    (f.rows t).Perm ((c.rows t).map (S.toSqlite t)) := by
  unfold Faithful at h
  split at h
  · next hp =>
    rw [hp] at hdone
    cases hdone
  · next p hp =>
    rw [hp] at hdone
    exact h.all hdone

/-- One page is written. -/
theorem Paging.chunk {s u : State S F} {t : String} {ts : List String} {copied : ℕ}
    {last : Option Key} {f : File Key Out F} {r : Row}
    (h : Paging fingerprint s t ts copied last) (hf : s.file = some f)
    (hr : (S.page t (s.snapshot.rows t) s.chunk last).getLast? = some r)
    (hfile : u.file = some (S.writeChunk f t (S.page t (s.snapshot.rows t) s.chunk last)
      ⟨copied + (S.page t (s.snapshot.rows t) s.chunk last).length, some (S.key t r), false⟩))
    (hsnap : u.snapshot = s.snapshot) :
    Paging fingerprint u t ts (copied + (S.page t (s.snapshot.rows t) s.chunk last).length)
      (some (S.key t r)) := by
  obtain ⟨before, hwork⟩ := h.working
  obtain ⟨hdone, hcopy⟩ := h.copied f hf
  have hnext := hcopy.chunk (s.snapshot.keys t) hr
  generalize S.page t (s.snapshot.rows t) s.chunk last = page at hfile hnext ⊢
  refine ⟨⟨before, hwork.update hf hfile hsnap rfl ?_ ?_ hdone ?_⟩, ?_⟩
  · intro u hu
    simp [Schema.writeChunk, hu]
  · intro u hu
    simp [Schema.writeChunk, hu]
  · simpa [Faithful, Schema.writeChunk] using hnext
  · intro f' hf'
    rw [hfile] at hf'
    obtain rfl := Option.some.inj hf'
    rw [hsnap]
    simpa [Schema.writeChunk] using hnext

/-- The table is done. -/
theorem Paging.sealed {s u : State S F} {t : String} {ts : List String} {copied : ℕ}
    {last : Option Key} {f : File Key Out F} (h : Paging fingerprint s t ts copied last)
    (hf : s.file = some f) (hall : (f.rows t).Perm ((s.snapshot.rows t).map (S.toSqlite t)))
    (marks : List ℕ) (hfile : u.file = some (S.seal f t marks ⟨copied, last, true⟩))
    (hsnap : u.snapshot = s.snapshot) : ∃ before, Working fingerprint u before ts := by
  obtain ⟨before, hwork⟩ := h.working
  obtain ⟨hdone, hcopy⟩ := h.copied f hf
  refine ⟨before ++ [t], Working.next (s := u) (hwork.update hf hfile hsnap rfl ?_ ?_ hdone ?_) rfl
    rfl ?_⟩
  · intro u hu
    simp [Schema.seal, hu]
  · intro u hu
    rfl
  · simp only [Faithful, Schema.seal, Function.update_self]
    exact ⟨hcopy.count, hcopy.upto, fun _ => hall⟩
  · intro f' hf'
    rw [hfile] at hf'
    obtain rfl := Option.some.inj hf'
    simp [Schema.seal]

variable [DecidableEq F]

theorem advance_exporting {s s' : State S F} (hfp : Distinguishes fingerprint)
    (h : Exporting fingerprint s) (hs : advance S fingerprint s = some s') :
    Exporting fingerprint s' := by
  have hstands := h.stands
  unfold advance at hs
  split at hs
  · next hpc hf =>
    obtain rfl := Option.some.inj hs
    exact ⟨h.chunk, h.owned, trivial⟩
  · next f hpc hf =>
    split_ifs at hs with hok <;> obtain rfl := Option.some.inj hs
    · obtain ⟨c, hc, hfaith⟩ := h.owned f hf _ hok.2
      have hwork : Working fingerprint { s with pc := .table S.tables } [] S.tables := by
        refine ⟨⟨f, hf, hok.2, ?_, nofun⟩, rfl⟩
        intro t ht
        exact (hfaith t ht).congr (hfp c s.snapshot hc t ht)
      exact ⟨h.chunk, h.owned, [], hwork⟩
    · exact ⟨h.chunk, nofun, trivial⟩
  · next f hpc =>
    obtain rfl := Option.some.inj hs
    refine ⟨h.chunk, ?_, _, rfl, rfl, rfl⟩
    intro f hf r hr
    cases hf
    cases hr
  · next f hpc hf =>
    obtain rfl := Option.some.inj hs
    simp only [Stands, hpc] at hstands
    obtain ⟨f', hf', hprog, hrows⟩ := hstands
    obtain rfl : f = f' := Option.some.inj (hf.symm.trans hf')
    have hwork : Working fingerprint { s with
        file := some { f with run := some (fingerprint s.snapshot) }, pc := .table S.tables } []
        S.tables := by
      refine ⟨⟨_, rfl, rfl, ?_, nofun⟩, rfl⟩
      intro t ht
      simp only [Faithful, hprog, hrows]
    exact ⟨h.chunk, hwork.owned, [], hwork⟩
  · next f hpc hf =>
    obtain rfl := Option.some.inj hs
    simp only [Stands, hpc] at hstands
    obtain ⟨before, hwork⟩ := hstands
    obtain ⟨f', hf', -, hfaith, hdone⟩ := hwork.file
    obtain rfl : f = f' := Option.some.inj (hf.symm.trans hf')
    refine ⟨h.chunk, ?_, _, rfl, rfl, ?_⟩
    · intro f₀ hf₀ r hr
      cases hf₀
      cases hr
    · intro t ht
      have hmem : t ∈ before := by
        have := hwork.tables ▸ ht
        simpa using this
      exact (hfaith t ht).done (hdone t hmem)
  · next t ts f hpc hf =>
    simp only [Stands, hpc] at hstands
    obtain ⟨before, hwork⟩ := hstands
    have hmem : t ∈ S.tables := by
      rw [hwork.tables]
      simp
    simp only at hs
    split_ifs at hs with hdone hshared <;> obtain rfl := Option.some.inj hs
    · refine ⟨h.chunk, h.owned, before ++ [t], hwork.next rfl rfl ?_⟩
      intro f' hf'
      obtain rfl : f = f' := Option.some.inj (hf.symm.trans hf')
      exact hdone
    · exact ⟨h.chunk, h.owned, trivial⟩
    · refine ⟨h.chunk, h.owned, ⟨before, hwork.file, hwork.tables⟩, ?_⟩
      intro f' hf'
      obtain rfl : f = f' := Option.some.inj (hf.symm.trans hf')
      obtain ⟨f₀, hf₀, -, hfaith, -⟩ := hwork.file
      obtain rfl : f = f₀ := Option.some.inj (hf.symm.trans hf₀)
      exact ⟨by simpa using hdone, (hfaith t hmem).copied⟩
  · next t ts copied last f hpc hf =>
    simp only [Stands, hpc] at hstands
    obtain ⟨hdone, hcopy⟩ := hstands.copied f hf
    simp only at hs
    split at hs
    · next hlast =>
      obtain rfl := Option.some.inj hs
      obtain ⟨before, hwork⟩ := hstands.working
      refine ⟨h.chunk, h.owned, ⟨⟨before, hwork.file, hwork.tables⟩, hstands.copied⟩, ?_⟩
      intro f' hf'
      obtain rfl : f = f' := Option.some.inj (hf.symm.trans hf')
      exact hcopy.whole h.chunk hlast
    · next r hlast =>
      obtain rfl := Option.some.inj hs
      have hpaging := hstands.chunk hf hlast (u := { s with
        file := _
        pc := .paging t ts (copied + (S.page t (s.snapshot.rows t) s.chunk last).length)
          (some (S.key t r)) }) rfl rfl
      obtain ⟨before', hwork'⟩ := hpaging.working
      exact ⟨h.chunk, hwork'.owned, hpaging⟩
  · next t ts copied last f hpc hf =>
    simp only [Stands, hpc] at hstands
    obtain ⟨hpaging, hall⟩ := hstands
    simp only at hs
    split_ifs at hs with hlen <;> obtain rfl := Option.some.inj hs
    · exact ⟨h.chunk, h.owned, trivial⟩
    · obtain ⟨before, hwork⟩ := hpaging.sealed hf (hall f hf) (s.snapshot.marks t) (u := { s with
        file := _, pc := .table ts, counts := s.counts ++ [(t, (s.snapshot.rows t).length)] })
        rfl rfl
      exact ⟨h.chunk, hwork.owned, before, hwork⟩
  · next hpc =>
    obtain rfl := Option.some.inj hs
    simp only [Stands, hpc] at hstands
    exact ⟨h.chunk, h.owned, hstands⟩
  · cases hs

theorem step_exporting {s s' : State S F} {a : Action S} (hfp : Distinguishes fingerprint)
    (h : Exporting fingerprint s) (hs : step S fingerprint s a = some s') :
    Exporting fingerprint s' := by
  cases a with
  | start snapshot maxRowsPerChunk =>
    have hchunk : 1 ≤ (max 1 (maxRowsPerChunk.getD 1000)).toNat := by omega
    simp only [step] at hs
    split at hs <;> cases hs
    all_goals exact ⟨hchunk, h.owned, trivial⟩
  | advance => exact advance_exporting hfp h hs
  | cut =>
    obtain rfl := Option.some.inj hs
    exact ⟨h.chunk, h.owned, trivial⟩

/-- An attempt is under way. -/
def Pc.Active : Pc Key → Prop
  | .idle | .returned | .threw _ => False
  | _ => True

/-- Steps left for the tables `ts`. -/
def awaits (rows : String → List Row) (ts : List String) : ℕ :=
  (ts.map fun t => (rows t).length + 3).sum

/-- A bound on the steps left of an attempt. -/
def left (s : State S F) : ℕ :=
  match s.pc with
  | .opening => awaits s.snapshot.rows S.tables + 5
  | .removed => awaits s.snapshot.rows S.tables + 4
  | .created => awaits s.snapshot.rows S.tables + 3
  | .table ts => awaits s.snapshot.rows ts + 2
  | .paging t ts _ last =>
    ((s.snapshot.rows t).filter (Beyond (S.key t) last)).length + awaits s.snapshot.rows ts + 4
  | .sealing _ ts _ _ => awaits s.snapshot.rows ts + 3
  | .closing => 1
  | .idle | .returned | .threw _ => 0

/-- An attempt under way goes on to a step closer to its end. -/
theorem Exporting.progress {s : State S F} (h : Exporting fingerprint s) (hactive : s.pc.Active)
    (hshared : ∀ t ∈ S.tables, S.shared t = true) :
    ∃ s', advance S fingerprint s = some s' ∧ left s' < left s ∧
      (s'.pc.Active ∨ s'.pc = .returned) := by
  have hstands := h.stands
  unfold Stands at hstands
  unfold left advance
  split at hstands
  · next hpc =>
    rw [hpc] at hactive
    exact hactive.elim
  · next hpc =>
    rw [hpc]
    cases hf : s.file with
    | none => exact ⟨_, rfl, by simp, .inl trivial⟩
    | some f =>
      simp only
      split_ifs
      · exact ⟨_, rfl, by simp, .inl trivial⟩
      · exact ⟨_, rfl, by simp, .inl trivial⟩
  · next hpc =>
    rw [hpc]
    exact ⟨_, rfl, by simp, .inl trivial⟩
  · next hpc =>
    rw [hpc] at hactive
    exact hactive.elim
  · next hpc =>
    obtain ⟨f, hf, -, -⟩ := hstands
    rw [hpc, hf]
    exact ⟨_, rfl, by simp, .inl trivial⟩
  · next ts hpc =>
    obtain ⟨before, hwork⟩ := hstands
    obtain ⟨f, hf, -, -, -⟩ := hwork.file
    rw [hpc, hf]
    cases ts with
    | nil => exact ⟨_, rfl, by simp, .inl trivial⟩
    | cons t ts =>
      have hmem : t ∈ S.tables := by
        rw [hwork.tables]
        simp
      simp only [hshared t hmem, Bool.true_eq_false, if_false]
      split_ifs
      · refine ⟨_, rfl, ?_, .inl trivial⟩
        simp only [awaits, List.map_cons, List.sum_cons]
        omega
      · refine ⟨_, rfl, ?_, .inl trivial⟩
        have hle := List.length_filter_le
          (fun r => decide (Beyond (S.key t) ((f.progress t).bind Progress.lastKey) r))
          (s.snapshot.rows t)
        simp only [awaits, List.map_cons, List.sum_cons]
        omega
  · next t ts copied last hpc =>
    obtain ⟨before, hwork⟩ := hstands.working
    obtain ⟨f, hf, -, -, -⟩ := hwork.file
    rw [hpc, hf]
    simp only
    split
    · exact ⟨_, rfl, by simp, .inl trivial⟩
    · next r hlast =>
      refine ⟨_, rfl, ?_, .inl trivial⟩
      obtain ⟨hperm, hbeyond⟩ := page_perm (s.snapshot.keys t) hlast
      have hmem : r ∈ between (S.key t) (s.snapshot.rows t) last (S.key t r) :=
        hperm.mem_iff.mp (List.mem_of_getLast? hlast)
      have hlt := beyond_length_lt (List.mem_of_mem_filter hmem) hbeyond
      simp only
      omega
  · next t ts copied last hpc =>
    obtain ⟨hpaging, hall⟩ := hstands
    obtain ⟨before, hwork⟩ := hpaging.working
    obtain ⟨f, hf, -, -, -⟩ := hwork.file
    have hlen : (f.rows t).length = (s.snapshot.rows t).length := by
      rw [(hall f hf).length_eq, List.length_map]
    rw [hpc, hf]
    simp only [hlen, ne_eq, not_true_eq_false, if_false]
    exact ⟨_, rfl, by simp, .inl trivial⟩
  · next hpc =>
    obtain ⟨f, hf, -, -⟩ := hstands
    rw [hpc, hf]
    exact ⟨_, rfl, by simp, .inr rfl⟩
  · next hpc =>
    rw [hpc] at hactive
    exact hactive.elim

theorem Exporting.returns {s : State S F} (hfp : Distinguishes fingerprint)
    (h : Exporting fingerprint s) (hactive : s.pc.Active)
    (hshared : ∀ t ∈ S.tables, S.shared t = true) :
    ∃ n s', run (step S fingerprint) s (List.replicate n .advance) = some s' ∧
      s'.pc = .returned := by
  induction hn : left s using Nat.strong_induction_on generalizing s with
  | _ n ih =>
    obtain ⟨s', hs, hlt, hs'⟩ := h.progress hactive hshared
    have hone : step S fingerprint s .advance = some s' := hs
    rcases hs' with hactive' | hdone
    · obtain ⟨m, s'', hrun, hdone⟩ := ih (left s') (hn ▸ hlt) (advance_exporting hfp h hs)
        hactive' rfl
      refine ⟨m + 1, s'', ?_, hdone⟩
      rw [List.replicate_succ, run, hone]
      exact hrun
    · exact ⟨1, s', by rw [List.replicate_one, run, hone]; rfl, hdone⟩

/-- Export copies exactly once: over every sequence of attempts that are cut anywhere, on contents
that may change in between, an attempt that returns leaves in the file exactly the rows of the
snapshot it read, and no partial run. And an attempt that is not cut returns. -/
theorem export_exact (fingerprint : Snapshot S → F) (hfp : Distinguishes fingerprint)
    (file : Option (File Key Out F)) (hfile : ∀ f, file = some f → f.run = none)
    (as : List (Action S)) (s : State S F)
    (hrun : run (step S fingerprint) { file := file } as = some s) :
    (s.pc = .returned → ∃ f, s.file = some f ∧ f.run = none ∧
      ∀ t ∈ S.tables, (f.rows t).Perm ((s.snapshot.rows t).map (S.toSqlite t))) ∧
    (s.pc.Active → (∀ t ∈ S.tables, S.shared t = true) →
      ∃ n s', run (step S fingerprint) s (List.replicate n .advance) = some s' ∧
        s'.pc = .returned) := by
  have hinit : Exporting fingerprint ({ file := file } : State S F) := by
    refine ⟨le_rfl, ?_, trivial⟩
    intro f hf r hr
    rw [hfile f hf] at hr
    cases hr
  have h : Exporting fingerprint s :=
    run_invariant (fun _ _ _ h hs => step_exporting hfp h hs) hinit hrun
  refine ⟨fun hpc => ?_, fun hactive hshared => h.returns hfp hactive hshared⟩
  have hstands := h.stands
  simp only [Stands, hpc] at hstands
  exact hstands

/-- A table with a primary key, and one whose rows repeat. -/
def twoTables : Schema ℕ ℕ ℕ where
  path := "inbox.db.partial"
  tables := ["todos", "claims_fts"]
  version := 8
  pk t := t = "todos"
  key _ r := r
  shared _ := true
  toSqlite _ r := r
  auto _ := false
  ident _ r := r

def twins : Snapshot twoTables where
  rows t := if t = "todos" then [3, 1, 2] else if t = "claims_fts" then [7, 5, 7, 6, 7] else []
  marks _ := []
  keys t ht := by
    obtain rfl : t = "todos" := by simpa [twoTables] using ht
    decide

def sorted (c : Snapshot twoTables) : List (List ℕ) :=
  twoTables.tables.map fun t => (c.rows t).insertionSort (· ≤ ·)

theorem sorted_distinguishes : Distinguishes sorted := by
  intro c c' heq t ht
  have hsame : ∀ u ∈ twoTables.tables,
      (c.rows u).insertionSort (· ≤ ·) = (c'.rows u).insertionSort (· ≤ ·) :=
    List.map_eq_map_iff.mp heq
  have hperm := List.perm_insertionSort (· ≤ ·) (c.rows t)
  rw [hsame t ht] at hperm
  exact hperm.symm.trans (List.perm_insertionSort _ _)

/-- Cut between two pages, resumed with another page size, cut once more when the progress tables
are gone, and started over. -/
def cutTwice : List (Action twoTables) :=
  ([.start twins (some 2)] : List (Action twoTables)) ++
    (List.replicate 10 .advance : List (Action twoTables)) ++
    ([.cut, .start twins (some 1)] : List (Action twoTables)) ++
    (List.replicate 7 .advance : List (Action twoTables)) ++
    ([.cut, .start twins none] : List (Action twoTables)) ++
    (List.replicate 13 .advance : List (Action twoTables))

theorem export_exact_twins :
    (run (step twoTables sorted) { file := none } cutTwice).map
        (fun s => s.file.map fun f => (f.rows "todos", f.rows "claims_fts")) =
      some (some ([1, 2, 3], [5, 6, 7, 7, 7])) ∧
    ∀ s, run (step twoTables sorted) { file := none } cutTwice = some s →
      (s.pc = .returned → ∃ f, s.file = some f ∧ f.run = none ∧ ∀ t ∈ twoTables.tables,
        (f.rows t).Perm ((s.snapshot.rows t).map (twoTables.toSqlite t))) ∧
      (s.pc.Active → (∀ t ∈ twoTables.tables, twoTables.shared t = true) →
        ∃ n s', run (step twoTables sorted) s (List.replicate n .advance) = some s' ∧
          s'.pc = .returned) :=
  ⟨by decide +kernel, fun s hrun =>
    export_exact sorted sorted_distinguishes none nofun cutTwice s hrun⟩

end ClaudeFleet.StoreExport
