import ClaudeFleet.StoreSwitch

/-! An import starts over by truncating the Postgres inbox. It may do so while the inbox.db it
reads is the one the run row speaks of: then every row a session wrote to Postgres is in it. -/
namespace ClaudeFleet.StoreSwitch
open Transition

variable {R F : Type} {fingerprint : Main R → Option (Finset R) → F}

/-- The run is in progress, or the tables were written out by a switch back. -/
def State.unfinished (s : State R F) : Bool := s.run.any fun r => !r.finished

/-- The run is in progress: an import is copying a file. -/
def State.inProgress (s : State R F) : Prop := ∃ fp, s.run = some ⟨.file fp, false⟩

/-- The snapshot the last switch back wrote out, while the run row speaks of it. -/
def State.exportedRows (s : State R F) : Option (Finset R) :=
  match s.run with
  | some ⟨.exported rows, false⟩ => some rows
  | _ => none

/-- While the run is unfinished the user puts no inbox.db into the directory, and moves one out only
beside the marker; and a session on Postgres does not write a row of the exported snapshot again
while an inbox.db is there. -/
def Undisturbed (s : State R F) : Action R → Prop
  | .moveOut _ => s.unfinished = true → s.marker ≠ none
  | .moveIn _ => s.unfinished = false
  | .write r => ∀ rows ∈ s.exportedRows, s.pc.isLive = true → s.db.isSome = true → r ∉ rows
  | _ => True

/-- A session on Postgres: the marker stands, and no import is in progress on a file. -/
structure Served (s : State R F) : Prop where
  marker : s.marker ≠ none
  calm : s.inProgress → s.db = none

/-- A switch back that will put its copy in place. -/
structure Leaving (s : State R F) (live : Bool) : Prop where
  marker : s.marker ≠ none
  calm : live = true → s.inProgress → s.db = none

/-- The copy stands in place. -/
structure Placed (s : State R F) : Prop where
  db : s.db.isSome = true
  inbox : s.inbox = s.rows

theorem Served.goto {s : State R F} (h : Served s) (pc : Pc R F) : Served (s.goto pc) :=
  ⟨h.marker, h.calm⟩

theorem Leaving.goto {s : State R F} {live : Bool} (h : Leaving s live) (pc : Pc R F) :
    Leaving (s.goto pc) live :=
  ⟨h.marker, h.calm⟩

theorem Placed.goto {s : State R F} (h : Placed s) (pc : Pc R F) : Placed (s.goto pc) :=
  ⟨h.db, h.inbox⟩

theorem sweep_inbox (s : State R F) : s.sweep.inbox = s.inbox := by
  unfold State.inbox State.sweep
  cases s.db <;> rfl

theorem ne_none {α : Type} {o : Option α} (h : o.isSome = true) : o ≠ none :=
  Option.isSome_iff_ne_none.mp h

variable [DecidableEq R]

instance (s : State R F) : (a : Action R) → Decidable (Undisturbed s a)
  | .moveOut _ => inferInstanceAs (Decidable (s.unfinished = true → s.marker ≠ none))
  | .moveIn _ => inferInstanceAs (Decidable (s.unfinished = false))
  | .write r => inferInstanceAs (Decidable (∀ rows ∈ s.exportedRows, s.pc.isLive = true →
      s.db.isSome = true → r ∉ rows))
  | .start | .retry | .advance | .fail | .chunk _ | .erase _ | .close _ | .switchBack | .choose _
  | .crash => instDecidableTrue

/-- Of the rows in Postgres, those that sessions wrote are in inbox.db too, as far as the
next import may truncate them. -/
def Backed (s : State R F) : Option (Run R F) → Prop
  | some ⟨.file _, false⟩ => s.owed ∩ s.rows ⊆ s.inbox
  | some ⟨.exported rows, false⟩ => s.owed ∩ s.rows ∩ rows ⊆ s.inbox
  | _ => True

def Stands (s : State R F) : Prop :=
  match s.pc with
  | .off | .waiting | .sweeping | .importing | .opening | .sqliteClosed => True
  | .restarting _ => s.owed ∩ s.rows ⊆ s.inbox ∧ s.db.isSome = true
  | .inserting _ => s.rows = ∅ ∧ s.db.isSome = true
  | .copying => s.db.isSome = true
  | .settling | .retiring => s.unfinished = true → s.db = none
  | .retiringSidecars | .goingLive => s.db = none
  | .skipping _ => s.inProgress → s.db = none
  | .copyingState | .live => Served s
  | .unmarking | .creating => s.unfinished = true → s.db.isSome = true
  | .sqliteLive => s.db.isSome = true
  | .planning live | .keeping live => live = true → Served s
  | .exporting live => Leaving s live
  | .merging live | .replacing live => Leaving s live ∧ s.fromPostgres = some s.rows
  | .replacingSidecars _ | .clearing _ => s.marker ≠ none ∧ s.db = none ∧
    s.fromPostgres = some s.rows
  | .placing _ => s.marker ≠ none ∧ s.wal = none ∧ s.fromPostgres = some s.rows
  | .verifying _ | .marking _ | .takingBack _ | .unmarkingBack _ _ | .restoring _ _ =>
    s.marker ≠ none ∧ Placed s
  | .committing _ _ marker | .remarking _ _ marker => marker ≠ none ∧ Placed s

/-- Whatever the run row will make of inbox.db, it loses no row; and while it may make something of
it, no SQLite start finds the place of inbox.db empty. -/
structure Safe (s : State R F) : Prop where
  backed : s.db.isSome = true → Backed s s.run
  marked : s.unfinished = true → s.db = none → s.marker ≠ none
  stands : Stands s

/-- A copy of the tables in the place of inbox.db backs any run row. -/
theorem Placed.backed {s : State R F} (h : Placed s) (run : Option (Run R F)) : Backed s run := by
  match run with
  | none => trivial
  | some ⟨.file _, true⟩ => trivial
  | some ⟨.exported _, true⟩ => trivial
  | some ⟨.file _, false⟩ =>
    unfold Backed
    rw [h.inbox]
    exact Finset.inter_subset_right
  | some ⟨.exported _, false⟩ =>
    unfold Backed
    rw [h.inbox]
    exact Finset.inter_subset_left.trans Finset.inter_subset_right

/-- Nothing is asked of inbox.db once the run is over. -/
theorem backed_of_finished {s : State R F} (h : s.unfinished = false) (t : State R F) :
    Backed t s.run := by
  match hrun : s.run with
  | none => trivial
  | some ⟨.file _, true⟩ => trivial
  | some ⟨.exported _, true⟩ => trivial
  | some ⟨_, false⟩ => simp [State.unfinished, hrun] at h

theorem restart_backed (s : State R F) (fp : F) : Backed (s.restart fp) (s.restart fp).run := by
  unfold State.restart
  match s.run with
  | none => trivial
  | some ⟨_, true⟩ => trivial
  | some ⟨_, false⟩ => simp [Backed]

/-- Fewer rows to account for, or more rows in inbox.db. -/
theorem Backed.mono {s t : State R F} {run : Option (Run R F)} (h : Backed s run)
    (hle : t.owed ∩ t.rows ⊆ s.owed ∩ s.rows ∪ t.inbox)
    (hinbox : s.inbox ∩ t.owed ⊆ t.inbox) : Backed t run := by
  have hkeep : ∀ r ∈ t.owed ∩ t.rows, r ∈ s.inbox → r ∈ t.inbox := by
    intro r hr hin
    exact hinbox (Finset.mem_inter.mpr ⟨hin, (Finset.mem_inter.mp hr).1⟩)
  match run with
  | none => trivial
  | some ⟨.file _, true⟩ => trivial
  | some ⟨.exported _, true⟩ => trivial
  | some ⟨.file _, false⟩ =>
    intro r hr
    rcases Finset.mem_union.mp (hle hr) with hold | hnew
    · exact hkeep r hr (h hold)
    · exact hnew
  | some ⟨.exported rows, false⟩ =>
    intro r hr
    obtain ⟨hr, hrows⟩ := Finset.mem_inter.mp hr
    rcases Finset.mem_union.mp (hle hr) with hold | hnew
    · exact hkeep r hr (h (Finset.mem_inter.mpr ⟨hold, hrows⟩))
    · exact hnew

/-- A chunk of inbox.db goes into the tables. -/
theorem Backed.chunk {s : State R F} {run : Option (Run R F)} {rows copied : Finset R}
    (h : Backed s run) (hrows : rows ⊆ s.inbox) :
    Backed { s with rows := s.rows ∪ rows, copied := copied } run := by
  refine h.mono ?_ Finset.inter_subset_left
  change s.owed ∩ (s.rows ∪ rows) ⊆ s.owed ∩ s.rows ∪ s.inbox
  rw [Finset.inter_union_distrib_left]
  exact Finset.union_subset_union_right (Finset.inter_subset_right.trans hrows)

/-- A session on SQLite changes inbox.db. -/
theorem Backed.rewrite {s : State R F} {run : Option (Run R F)} {inbox owed : Finset R}
    (h : Backed s run) (hdb : s.db.isSome = true) (howed : owed ⊆ s.owed)
    (hinbox : s.inbox ∩ owed ⊆ inbox) : Backed { s with wal := some inbox, owed := owed } run := by
  obtain ⟨m, hm⟩ := Option.isSome_iff_exists.mp hdb
  have hread : State.inbox { s with wal := some inbox, owed := owed } = inbox := by
    simp [State.inbox, contents, hm]
  refine h.mono ?_ ?_
  · exact (Finset.inter_subset_inter_right howed).trans Finset.subset_union_left
  · rw [hread]
    exact hinbox

/-- A session on Postgres writes a row. -/
theorem Backed.write {s : State R F} {r : R} (h : Backed s s.run) (hserved : Served s)
    (hdb : s.db.isSome = true) (hnew : ∀ rows ∈ s.exportedRows, r ∉ rows) :
    Backed { s with rows := insert r s.rows, owed := insert r s.owed } s.run := by
  match hrun : s.run with
  | none => trivial
  | some ⟨.file _, true⟩ => trivial
  | some ⟨.exported _, true⟩ => trivial
  | some ⟨.file fp, false⟩ => exact absurd (hserved.calm ⟨fp, hrun⟩) (ne_none hdb)
  | some ⟨.exported rows, false⟩ =>
    have hr := hnew rows (by simp [State.exportedRows, hrun])
    rw [hrun] at h
    intro x hx
    simp only [Finset.mem_inter, Finset.mem_insert] at hx
    obtain ⟨⟨hx₁, hx₂⟩, hx₃⟩ := hx
    have hne : x ≠ r := fun heq => hr (heq ▸ hx₃)
    have hold : x ∈ s.owed ∩ s.rows ∩ rows :=
      Finset.mem_inter.mpr ⟨Finset.mem_inter.mpr ⟨hx₁.resolve_left hne, hx₂.resolve_left hne⟩, hx₃⟩
    exact h hold

theorem Safe.goto {s : State R F} {pc : Pc R F} (h : Safe s) (hstands : Stands (s.goto pc)) :
    Safe (s.goto pc) :=
  ⟨h.backed, h.marked, hstands⟩

theorem Backed.sweep {s : State R F} {run : Option (Run R F)} (h : Backed s run) :
    Backed s.sweep run := by
  refine h.mono Finset.subset_union_left ?_
  rw [sweep_inbox]
  exact Finset.inter_subset_left

theorem Safe.sweep {s : State R F} {pc : Pc R F} (h : Safe s)
    (hstands : Stands (s.sweep.goto pc)) : Safe (s.sweep.goto pc) :=
  ⟨fun hdb => (h.backed hdb).sweep, h.marked, hstands⟩

/-- The plan of a switch back leaves it where it may go on. -/
theorem switchBackPlan_stands {s : State R F} {live : Bool} (hserved : live = true → Served s) :
    Stands (s.goto (switchBackPlan s live)) := by
  have hmarker : s.inboxOnPostgres = true → s.marker ≠ none := by
    intro hon hnone
    simp [State.inboxOnPostgres, hnone] at hon
  unfold switchBackPlan
  split_ifs with hkeep habsent hoff hempty
  · exact fun hlive => (hserved hlive).goto _
  · refine ⟨?_, fun hlive => (hserved hlive).calm⟩
    cases live with
    | false => exact hmarker (by simpa using hkeep)
    | true => exact (hserved rfl).marker
  · exact fun hlive => (hserved hlive).goto _
  · exact ⟨hmarker (by simpa using hoff), fun hlive => (hserved hlive).calm⟩
  · cases live with
    | false => trivial
    | true => exact (hserved rfl).goto _

theorem resting_stands {s : State R F} {live : Bool} (h : live = true → Served s) :
    Stands (s.goto (resting live)) := by
  cases live with
  | false => trivial
  | true => exact (h rfl).goto _

theorem openInbox_safe {s t : State R F} (h : Safe s)
    (hs : openInbox s = some t) : Safe t := by
  have hstands := h.stands
  unfold openInbox at hs
  split at hs
  · next hpc =>
    obtain rfl := Option.some.inj hs
    split_ifs with hon
    · exact h.goto trivial
    · refine h.sweep fun hun => ?_
      by_contra hdb
      have hnone : s.db = none := Option.not_isSome_iff_eq_none.mp hdb
      have hmarker := h.marked hun hnone
      cases hm : s.marker with
      | none => exact hmarker hm
      | some m => simp [State.inboxOnPostgres, hm, hnone] at hon
  · next hpc =>
    obtain rfl := Option.some.inj hs
    simp only [Stands, hpc] at hstands
    exact ⟨h.backed, fun hun hnone => absurd hnone (ne_none (hstands hun)), hstands⟩
  · next hpc =>
    obtain rfl := Option.some.inj hs
    simp only [Stands, hpc] at hstands
    refine ⟨fun _ => ?_, nofun, rfl⟩
    cases hun : s.unfinished with
    | false => exact backed_of_finished hun _
    | true =>
      obtain ⟨m, hm⟩ := Option.isSome_iff_exists.mp (hstands hun)
      refine (h.backed (hstands hun)).mono Finset.subset_union_left ?_
      simp [State.inbox, hm]
  · cases hs

theorem switchBackToSqlite_safe {s t : State R F} (h : Safe s)
    (hs : switchBackToSqlite s = some t) : Safe t := by
  have hstands := h.stands
  unfold switchBackToSqlite at hs
  split at hs
  · next live hpc =>
    obtain rfl := Option.some.inj hs
    simp only [Stands, hpc] at hstands
    exact h.sweep (switchBackPlan_stands fun hlive => ⟨(hstands hlive).marker, (hstands hlive).calm⟩)
  · next live hpc =>
    obtain rfl := Option.some.inj hs
    exact ⟨h.backed, h.marked, trivial⟩
  · next live hpc =>
    obtain rfl := Option.some.inj hs
    simp only [Stands, hpc] at hstands
    exact ⟨h.backed, h.marked, ⟨hstands.marker, hstands.calm⟩, rfl⟩
  · next live hpc =>
    obtain rfl := Option.some.inj hs
    simp only [Stands, hpc] at hstands
    exact h.goto ⟨hstands.1.goto _, hstands.2⟩
  · next live hpc =>
    obtain rfl := Option.some.inj hs
    simp only [Stands, hpc] at hstands
    obtain ⟨hleaving, hfrom⟩ := hstands
    refine ⟨nofun, fun _ _ => hleaving.marker, ?_⟩
    cases s.db <;> exact ⟨hleaving.marker, rfl, hfrom⟩
  · next live hpc =>
    obtain rfl := Option.some.inj hs
    simp only [Stands, hpc] at hstands
    obtain ⟨hmarker, hnone, hfrom⟩ := hstands
    exact ⟨fun hdb => absurd hnone (ne_none hdb), h.marked, hmarker, hnone, hfrom⟩
  · next live hpc =>
    obtain rfl := Option.some.inj hs
    simp only [Stands, hpc] at hstands
    obtain ⟨hmarker, hnone, hfrom⟩ := hstands
    refine h.sweep ⟨hmarker, ?_, hfrom⟩
    simp [State.sweep, State.goto, hnone]
  · next live hpc =>
    obtain rfl := Option.some.inj hs
    simp only [Stands, hpc] at hstands
    obtain ⟨hmarker, hwal, hfrom⟩ := hstands
    have hplaced : Placed { s with
        db := s.fromPostgres.map fun rows => ⟨rows, 0⟩, fromPostgres := none
        pc := .verifying live } := by
      constructor <;> simp [State.inbox, contents, hfrom, hwal]
    exact ⟨fun _ => hplaced.backed _, fun _ hnone => absurd hnone (ne_none hplaced.db), hmarker,
      hplaced⟩
  · next live hpc =>
    obtain rfl := Option.some.inj hs
    simp only [Stands, hpc] at hstands
    exact h.goto ⟨hstands.1, hstands.2.goto _⟩
  · next live hpc =>
    obtain rfl := Option.some.inj hs
    simp only [Stands, hpc] at hstands
    obtain ⟨hmarker, hplaced⟩ := hstands
    have hplaced' : Placed { s with
        run := some ⟨.exported s.inbox, false⟩, pc := .unmarkingBack live s.run } :=
      ⟨hplaced.db, hplaced.inbox⟩
    exact ⟨fun _ => hplaced'.backed _, fun _ hnone => absurd hnone (ne_none hplaced.db), hmarker,
      hplaced'⟩
  · next live prev hpc =>
    obtain rfl := Option.some.inj hs
    simp only [Stands, hpc] at hstands
    obtain ⟨hmarker, hplaced⟩ := hstands
    exact ⟨h.backed, fun _ hnone => absurd hnone (ne_none hplaced.db), hmarker,
      ⟨hplaced.db, hplaced.inbox⟩⟩
  · next hpc =>
    obtain rfl := Option.some.inj hs
    exact ⟨h.backed, h.marked, trivial⟩
  · next live prev marker hpc =>
    obtain rfl := Option.some.inj hs
    simp only [Stands, hpc] at hstands
    obtain ⟨hmarker, hplaced⟩ := hstands
    have hback : marker.or s.marker ≠ none := by
      cases marker with
      | none => exact absurd rfl hmarker
      | some m => exact nofun
    exact ⟨h.backed, fun _ _ => hback, hback, ⟨hplaced.db, hplaced.inbox⟩⟩
  · next live prev hpc =>
    obtain rfl := Option.some.inj hs
    simp only [Stands, hpc] at hstands
    obtain ⟨hmarker, hplaced⟩ := hstands
    have hplaced' : Placed { s with run := prev, pc := .takingBack live } :=
      ⟨hplaced.db, hplaced.inbox⟩
    exact ⟨fun _ => hplaced'.backed _, fun _ _ => hmarker, hmarker, hplaced'⟩
  · next live hpc =>
    obtain rfl := Option.some.inj hs
    simp only [Stands, hpc] at hstands
    refine ⟨nofun, fun _ _ => hstands.1, ?_⟩
    cases live with
    | false => trivial
    | true => exact ⟨hstands.1, fun _ => rfl⟩
  · cases hs

theorem fail_safe {s t : State R F} (h : Safe s) (hs : fail s = some t) : Safe t := by
  have hstands := h.stands
  unfold fail at hs
  split at hs
  case h_12 hpc | h_13 hpc =>
    obtain rfl := Option.some.inj hs
    simp only [Stands, hpc] at hstands
    exact h.goto (resting_stands hstands)
  case h_14 hpc =>
    obtain rfl := Option.some.inj hs
    simp only [Stands, hpc] at hstands
    exact h.goto (resting_stands fun hlive => ⟨hstands.marker, hstands.calm hlive⟩)
  case h_15 hpc =>
    obtain rfl := Option.some.inj hs
    simp only [Stands, hpc] at hstands
    exact h.goto (resting_stands fun hlive => ⟨hstands.1.marker, hstands.1.calm hlive⟩)
  case h_16 hpc | h_17 hpc | h_18 hpc | h_19 hpc =>
    obtain rfl := Option.some.inj hs
    simp only [Stands, hpc] at hstands
    exact h.goto ⟨hstands.1, hstands.2.goto _⟩
  case h_20 => cases hs
  all_goals
    obtain rfl := Option.some.inj hs
    exact h.goto trivial

variable [DecidableEq F]

/-- The import's first look leaves it where it may go on. -/
theorem importPlan_safe {s : State R F} (h : Safe s) :
    Safe (s.goto (importPlan fingerprint s)) := by
  refine h.goto ?_
  cases hdb : s.db with
  | none =>
    simp only [importPlan, hdb]
    exact fun _ => hdb
  | some m =>
    have hsome : s.db.isSome = true := by rw [hdb]; rfl
    have hbacked := h.backed hsome
    simp only [importPlan, hdb]
    match hrun : s.run with
    | none =>
      dsimp only
      split_ifs with hempty
      · exact ⟨hempty, hsome⟩
      · rintro ⟨fp, hfp⟩
        exact absurd (hrun.symm.trans hfp) nofun
    | some ⟨source, true⟩ =>
      dsimp only
      split_ifs
      · intro hun
        simp [State.unfinished, State.goto, hrun] at hun
      · rintro ⟨fp, hfp⟩
        exact absurd (hrun.symm.trans hfp) nofun
    | some ⟨.file fp, false⟩ =>
      dsimp only
      rw [hrun] at hbacked
      split_ifs with hsame
      · exact hsome
      · exact ⟨hbacked, hsome⟩
    | some ⟨.exported rows, false⟩ =>
      dsimp only
      rw [hrun] at hbacked
      split_ifs with hsame
      · refine ⟨?_, hsome⟩
        have hall : s.owed ∩ s.rows ∩ rows = s.owed ∩ s.rows := by
          rw [← hsame]
          exact Finset.inter_eq_left.mpr Finset.inter_subset_right
        exact hall ▸ hbacked
      · rintro ⟨fp, hfp⟩
        exact absurd (hrun.symm.trans hfp) nofun

theorem firstSwitchCopy_safe {s t : State R F} (h : Safe s)
    (hs : firstSwitchCopy fingerprint s = some t) : Safe t := by
  have hstands := h.stands
  unfold firstSwitchCopy at hs
  split at hs
  · next hpc =>
    obtain rfl := Option.some.inj hs
    exact h.sweep trivial
  · next hpc =>
    obtain rfl := Option.some.inj hs
    exact importPlan_safe h
  · next fp hpc =>
    obtain rfl := Option.some.inj hs
    simp only [Stands, hpc] at hstands
    obtain ⟨-, hdb⟩ := hstands
    exact ⟨fun _ => restart_backed s fp, fun _ hnone => absurd hnone (ne_none hdb), hdb⟩
  · next fp hpc =>
    obtain rfl := Option.some.inj hs
    simp only [Stands, hpc] at hstands
    obtain ⟨hrows, hdb⟩ := hstands
    refine ⟨fun _ => ?_, fun _ hnone => absurd hnone (ne_none hdb), hdb⟩
    simp [Backed, hrows]
  · next hpc =>
    simp only [Stands, hpc] at hstands
    split_ifs at hs with hall hcard <;> obtain rfl := Option.some.inj hs
    · have hover : Option.any (fun r => !r.finished)
          (s.run.map fun r => { r with finished := true }) = false := by
        cases s.run <;> rfl
      refine ⟨fun _ => ?_, fun hun => ?_, fun hun => ?_⟩
      · exact backed_of_finished (s := { s with
          run := s.run.map fun r => { r with finished := true } }) hover _
      · exact absurd (hover.symm.trans hun) nofun
      · exact absurd (hover.symm.trans hun) nofun
    · exact h.goto trivial
  · next hpc =>
    obtain rfl := Option.some.inj hs
    simp only [Stands, hpc] at hstands
    exact ⟨h.backed, fun _ _ => nofun, hstands⟩
  · next hpc =>
    obtain rfl := Option.some.inj hs
    simp only [Stands, hpc] at hstands
    refine ⟨nofun, fun hun _ => h.marked hun (hstands hun), ?_⟩
    cases s.db <;> rfl
  · next hpc =>
    obtain rfl := Option.some.inj hs
    simp only [Stands, hpc] at hstands
    refine ⟨fun hdb => ?_, h.marked, hstands⟩
    exact absurd hstands (ne_none hdb)
  · next hpc =>
    obtain rfl := Option.some.inj hs
    simp only [Stands, hpc] at hstands
    exact ⟨h.backed, fun _ _ => nofun, nofun, fun _ => hstands⟩
  · next m hpc =>
    obtain rfl := Option.some.inj hs
    simp only [Stands, hpc] at hstands
    exact ⟨h.backed, fun _ _ => nofun, nofun, hstands⟩
  · next hpc =>
    obtain rfl := Option.some.inj hs
    simp only [Stands, hpc] at hstands
    exact h.goto (hstands.goto _)
  · cases hs

theorem advance_safe {s t : State R F} (h : Safe s) (hs : advance fingerprint s = some t) :
    Safe t := by
  rcases Option.or_eq_some_iff.mp hs with hs | ⟨-, hs⟩
  · exact firstSwitchCopy_safe h hs
  · rcases Option.or_eq_some_iff.mp hs with hs | ⟨-, hs⟩
    · exact openInbox_safe h hs
    · exact switchBackToSqlite_safe h hs


theorem step_safe {s t : State R F} {a : Action R} (h : Safe s) (hok : Undisturbed s a)
    (hs : step fingerprint s a = some t) : Safe t := by
  have hstands := h.stands
  cases a with
  | start =>
    simp only [step] at hs
    split at hs
    · obtain rfl := Option.some.inj hs
      exact h.goto trivial
    · obtain rfl := Option.some.inj hs
      exact h.goto trivial
    · cases hs
  | retry =>
    simp only [step] at hs
    split at hs
    · obtain rfl := Option.some.inj hs
      exact h.goto trivial
    · cases hs
  | advance => exact advance_safe h hs
  | fail => exact fail_safe h hs
  | chunk rows =>
    simp only [step] at hs
    split at hs
    · next hpc =>
      split_ifs at hs with hrows
      obtain rfl := Option.some.inj hs
      simp only [Stands, hpc] at hstands
      refine ⟨fun hdb => (h.backed hdb).chunk (hrows.1.trans Finset.sdiff_subset), h.marked, ?_⟩
      simp only [Stands, hpc]
      exact hstands
    · cases hs
  | write r =>
    simp only [step] at hs
    split at hs
    · next hpc =>
      obtain rfl := Option.some.inj hs
      simp only [Stands, hpc] at hstands
      refine ⟨fun hdb => (h.backed hdb).write hstands hdb fun rows hrows => ?_, h.marked, ?_⟩
      · exact hok rows hrows (by rw [hpc]; rfl) hdb
      · simp only [Stands, hpc]
        exact ⟨hstands.marker, hstands.calm⟩
    · next hpc =>
      obtain rfl := Option.some.inj hs
      simp only [Stands, hpc] at hstands
      refine ⟨fun hdb => (h.backed hdb).rewrite hdb (Finset.Subset.refl _) ?_, h.marked, ?_⟩
      · exact Finset.inter_subset_left.trans (Finset.subset_insert _ _)
      · simp only [Stands, hpc]
        exact hstands
    · cases hs
  | erase r =>
    simp only [step] at hs
    split at hs
    · next hpc =>
      obtain rfl := Option.some.inj hs
      simp only [Stands, hpc] at hstands
      refine ⟨fun hdb => (h.backed hdb).mono ?_ Finset.inter_subset_left, h.marked, ?_⟩
      · refine (Finset.inter_subset_inter ?_ ?_).trans Finset.subset_union_left
        · exact Finset.erase_subset _ _
        · exact Finset.erase_subset _ _
      · simp only [Stands, hpc]
        exact ⟨hstands.marker, hstands.calm⟩
    · next hpc =>
      obtain rfl := Option.some.inj hs
      simp only [Stands, hpc] at hstands
      refine ⟨fun hdb => (h.backed hdb).rewrite hdb (Finset.erase_subset _ _) ?_, h.marked, ?_⟩
      · intro x hx
        obtain ⟨hin, howed⟩ := Finset.mem_inter.mp hx
        exact Finset.mem_erase.mpr ⟨(Finset.mem_erase.mp howed).1, hin⟩
      · simp only [Stands, hpc]
        exact hstands
    · cases hs
  | close stamp =>
    simp only [step] at hs
    split at hs
    · next hpc =>
      obtain rfl := Option.some.inj hs
      simp only [Stands, hpc] at hstands
      refine ⟨fun _ => (h.backed hstands).mono Finset.subset_union_left ?_, nofun, trivial⟩
      exact Finset.inter_subset_left
    · cases hs
  | switchBack =>
    simp only [step] at hs
    split at hs
    · next hpc =>
      obtain rfl := Option.some.inj hs
      simp only [Stands, hpc] at hstands
      exact h.goto fun _ => hstands.goto _
    · obtain rfl := Option.some.inj hs
      exact h.goto nofun
    · cases hs
  | choose store =>
    simp only [step] at hs
    split_ifs at hs with hsettled
    obtain rfl := Option.some.inj hs
    refine ⟨h.backed, h.marked, ?_⟩
    cases hpc : s.pc <;> rw [hpc] at hsettled <;> simp only [Stands, hpc] at hstands ⊢
    case live => exact ⟨hstands.marker, hstands.calm⟩
    case sqliteLive => exact hstands
    all_goals cases hsettled
  | crash =>
    obtain rfl := Option.some.inj hs
    exact h.goto trivial
  | moveOut sidecars =>
    simp only [step] at hs
    split at hs
    · next hpc hdb =>
      obtain rfl := Option.some.inj hs
      refine ⟨nofun, fun hun _ => hok hun, ?_⟩
      simp only [Stands, hpc]
    · cases hs
  | moveIn n =>
    simp only [step] at hs
    split at hs
    · next hpc hout =>
      obtain rfl := Option.some.inj hs
      refine ⟨fun _ => backed_of_finished hok _, nofun, ?_⟩
      simp only [Stands, hpc]
    · cases hs

/-- In every run whose steps leave an unfinished run row undisturbed, an import that is about to
truncate the Postgres inbox finds each row that a session wrote there in the file it imports. -/
theorem truncate_spares_written (fingerprint : Main R → Option (Finset R) → F) (s₀ : State R F)
    (hpc₀ : s₀.pc = .off) (hrun₀ : s₀.unfinished = false) (as : List (Action R)) (s : State R F)
    (hrun : run (step fingerprint) s₀ as = some s)
    (hok : Along (step fingerprint) Undisturbed s₀ as) (fp : F) (hpc : s.pc = .restarting fp) :
    ∀ r ∈ s.rows, r ∈ s.owed → r ∈ s.inbox := by
  have hinit : Safe s₀ := by
    refine ⟨fun _ => backed_of_finished hrun₀ _, fun hun => absurd (hrun₀.symm.trans hun) nofun, ?_⟩
    simp only [Stands, hpc₀]
  have h : Safe s := run_invariant_along (fun _ _ _ h hok hs => step_safe h hok hs) hinit hrun hok
  have hstands := h.stands
  simp only [Stands, hpc] at hstands
  intro r hr howed
  exact hstands.1 (Finset.mem_inter.mpr ⟨howed, hr⟩)

/-- A fingerprint that tells everything apart. -/
def exactFingerprint (m : Main ℕ) (wal : Option (Finset ℕ)) :
    Finset ℕ × ℕ × Option (Finset ℕ) :=
  (m.rows, m.stamp, wal)

/-- inbox.db with one row beside an empty Postgres store that is chosen. -/
def firstSwitch : State ℕ (Finset ℕ × ℕ × Option (Finset ℕ)) where
  choice := .postgres
  marker := none
  db := some ⟨{1}, 0⟩
  wal := none
  fromPostgres := none
  outside := []
  rows := ∅
  run := none
  copied := ∅
  owed := ∅
  pc := .off

/-- A start on Postgres that copies inbox.db, and a row written there. -/
def copyAndWrite : List (Action ℕ) :=
  ([.start, .advance, .advance, .advance, .chunk {1}] : List (Action ℕ)) ++
    (List.replicate 6 .advance : List (Action ℕ)) ++ ([.write 2] : List (Action ℕ))

def switchesBack : List (Action ℕ) := .switchBack :: List.replicate 10 .advance

/-- A SQLite start that opens inbox.db and writes a row. -/
def writeOnSqlite (r : ℕ) : List (Action ℕ) :=
  [.start, .advance, .advance, .advance, .write r, .close 1]

/-- A Postgres start up to the import's first look. -/
def reimports : List (Action ℕ) := [.choose .postgres, .start, .advance, .advance]

/-- The import is about to truncate, and each row that sessions wrote meets a test. -/
def State.truncates (s : State ℕ (Finset ℕ × ℕ × Option (Finset ℕ)))
    (test : Finset ℕ → Finset ℕ → Bool) : Bool :=
  match s.pc with
  | .restarting _ => test (s.owed ∩ s.rows) s.inbox
  | _ => false

/-- A switch to Postgres, back to SQLite, and to Postgres again. -/
def roundTrip : List (Action ℕ) := copyAndWrite ++ switchesBack ++ writeOnSqlite 3 ++ reimports

theorem truncate_spares_written_round :
    ((run (step exactFingerprint) firstSwitch roundTrip).any fun s =>
      s.truncates fun owed inbox => owed = {2} ∧ inbox = {1, 2, 3}) = true ∧
    ∀ s fp, run (step exactFingerprint) firstSwitch roundTrip = some s → s.pc = .restarting fp →
      ∀ r ∈ s.rows, r ∈ s.owed → r ∈ s.inbox :=
  ⟨by decide +kernel, fun s fp hrun hpc =>
    truncate_spares_written exactFingerprint firstSwitch rfl rfl roundTrip s hrun
      (by decide +kernel) fp hpc⟩

/-- The first copy is cut right after its run row, inbox.db is written on SQLite and moved out, a
session writes to Postgres, and inbox.db comes back. -/
def movedDuringRun : List (Action ℕ) :=
  ([.start, .advance, .advance, .advance, .crash, .choose .sqlite] : List (Action ℕ)) ++
    writeOnSqlite 2 ++ ([.choose .postgres, .moveOut true, .start] : List (Action ℕ)) ++
    (List.replicate 6 .advance : List (Action ℕ)) ++
    ([.write 3, .crash, .moveIn 0] : List (Action ℕ)) ++ reimports

/-- inbox.db is moved out after a switch back, and a SQLite start creates a new one. -/
def movedAfterSwitch : List (Action ℕ) :=
  copyAndWrite ++ switchesBack ++ ([.moveOut true] : List (Action ℕ)) ++ writeOnSqlite 3 ++ reimports

theorem State.truncates_loses {s : State ℕ (Finset ℕ × ℕ × Option (Finset ℕ))}
    (h : (s.truncates fun owed inbox => !decide (owed ⊆ inbox)) = true) :
    ∃ fp, s.pc = .restarting fp ∧ ∃ r ∈ s.rows, r ∈ s.owed ∧ r ∉ s.inbox := by
  unfold State.truncates at h
  split at h
  · next fp hpc =>
    have hnot : ¬ s.owed ∩ s.rows ⊆ s.inbox := by simpa using h
    obtain ⟨r, hr, hin⟩ := Finset.not_subset.mp hnot
    obtain ⟨howed, hrows⟩ := Finset.mem_inter.mp hr
    exact ⟨fp, hpc, r, hrows, howed, hin⟩
  · cases h

/-- The run row outlives the file it speaks of. Left in progress by a crash, it lets a session
write to Postgres while inbox.db is away, and truncates what the session wrote when inbox.db is
back; left by a switch back, it truncates for an inbox.db that is not the copy's successor. -/
theorem truncate_loses_written :
    (∃ s fp, run (step exactFingerprint) firstSwitch movedDuringRun = some s ∧
      s.pc = .restarting fp ∧ ∃ r ∈ s.rows, r ∈ s.owed ∧ r ∉ s.inbox) ∧
    ∃ s fp, run (step exactFingerprint) firstSwitch movedAfterSwitch = some s ∧
      s.pc = .restarting fp ∧ ∃ r ∈ s.rows, r ∈ s.owed ∧ r ∉ s.inbox := by
  constructor
  · have h : ((run (step exactFingerprint) firstSwitch movedDuringRun).any fun s =>
        s.truncates fun owed inbox => !decide (owed ⊆ inbox)) = true := by decide +kernel
    obtain ⟨s, hrun, hs⟩ := (Option.any_eq_true _ _).mp h
    obtain ⟨fp, hpc, hr⟩ := State.truncates_loses hs
    exact ⟨s, fp, hrun, hpc, hr⟩
  · have h : ((run (step exactFingerprint) firstSwitch movedAfterSwitch).any fun s =>
        s.truncates fun owed inbox => !decide (owed ⊆ inbox)) = true := by decide +kernel
    obtain ⟨s, hrun, hs⟩ := (Option.any_eq_true _ _).mp h
    obtain ⟨fp, hpc, hr⟩ := State.truncates_loses hs
    exact ⟨s, fp, hrun, hpc, hr⟩

end ClaudeFleet.StoreSwitch
