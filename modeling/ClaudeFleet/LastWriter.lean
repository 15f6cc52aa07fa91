import ClaudeFleet.UserState

/-! After a start or a switch the live store holds what live sessions wrote last. No row carries a
time: a merge is right when it goes from the store that leads, and which one leads is read off the
fingerprint in the run row. -/
namespace ClaudeFleet.UserState
open StateDb Transition

/-- The tables hold what live sessions wrote last. -/
def Leads (T : Rows) (last : Key → Option Authored) : Prop :=
  ∀ k a, last k = some a → (T.get k).map Row.authored = some a

theorem Row.authored_overwrite {r x : Row} (h : x.key = r.key) :
    (r.overwrite x).authored = r.authored := by
  unfold Row.overwrite
  rw [if_pos h]
  cases r <;> cases x <;> rfl

theorem Row.authored_refresh (r x : Row) : (r.refresh x).authored = x.authored := by
  unfold Row.refresh
  split_ifs
  · cases r <;> cases x <;> rfl
  · rfl

theorem get_put (T : Rows) (r : Row) (k : Key) :
    ((put T r).get k).map Row.authored =
      if k = r.key then some r.authored else (T.get k).map Row.authored := by
  unfold put
  rw [Table.get_upsert]
  split_ifs with hk
  · cases hx : T.get k with
    | none => rfl
    | some x =>
      have hkey : x.key = r.key := (Table.get_eq_some.mp hx).2.trans hk
      simp only [Option.elim_some, Option.map_some, Row.authored_overwrite hkey]
  · rfl

/-- The outgoing store wins, and what it lacks stays. -/
theorem get_merge (into out : Rows) (k : Key) :
    ((merge into out).get k).map Row.authored =
      ((out.get k).or (into.get k)).map Row.authored := by
  have hfold : ∀ (rows : List Row) (T : Rows), (rows.map Row.key).Nodup →
      ((rows.foldl put T).get k).map Row.authored =
        ((rows.find? fun r => r.key = k).or (T.get k)).map Row.authored := by
    intro rows
    induction rows with
    | nil =>
      intro T _
      rfl
    | cons r rows ih =>
      intro T hnodup
      obtain ⟨hnotin, hnodup⟩ := List.nodup_cons.mp hnodup
      rw [List.foldl_cons, ih (put T r) hnodup]
      by_cases hk : r.key = k
      · have hnone : rows.find? (fun x => x.key = k) = none := by
          rw [List.find?_eq_none]
          intro x hx hxk
          exact hnotin (List.mem_map.mpr ⟨x, hx, (of_decide_eq_true hxk).trans hk.symm⟩)
        rw [hnone, List.find?_cons_of_pos (by simpa using hk), Option.none_or, get_put,
          if_pos hk.symm]
        rfl
      · rw [List.find?_cons_of_neg (by simpa using hk)]
        cases rows.find? fun x => x.key = k with
        | none => rw [Option.none_or, Option.none_or, get_put, if_neg (Ne.symm hk)]
        | some x => rfl
  exact hfold out.rows into out.nodup

theorem Leads.merge {out : Rows} {last : Key → Option Authored} (h : Leads out last)
    (into : Rows) : Leads (merge into out) last := by
  intro k a hk
  have hout := h k a hk
  rw [get_merge]
  cases hr : out.get k with
  | none =>
    rw [hr] at hout
    cases hout
  | some r =>
    rw [hr] at hout
    exact hout

theorem Leads.put {T : Rows} {last : Key → Option Authored} (h : Leads T last) (r : Row) :
    Leads (put T r) (Function.update last r.key (some r.authored)) := by
  intro k a hk
  rw [get_put]
  by_cases heq : k = r.key
  · subst heq
    rw [Function.update_self] at hk
    rw [if_pos rfl, hk]
  · rw [Function.update_of_ne heq] at hk
    rw [if_neg heq]
    exact h k a hk

theorem Leads.ingest {T : Rows} {last : Key → Option Authored} (h : Leads T last)
    (r : SessionRow) : Leads (ingest T r) last := by
  intro k a hk
  have hold := h k a hk
  unfold UserState.ingest
  rw [Table.get_upsert]
  split_ifs with heq
  · cases hx : T.get k with
    | none =>
      rw [hx] at hold
      cases hold
    | some x =>
      rw [hx, Option.map_some] at hold
      rw [Option.elim_some, Option.map_some, Row.authored_refresh]
      exact hold
  · exact hold

theorem Leads.delete {T : Rows} {last : Key → Option Authored} (h : Leads T last) (k : Key) :
    Leads (T.deleteWhere fun r => r.key = k) (Function.update last k none) := by
  intro j a hj
  have hne : j ≠ k := by
    rintro rfl
    rw [Function.update_self] at hj
    cases hj
  rw [Function.update_of_ne hne] at hj
  have hold := h j a hj
  rw [Table.get_deleteWhere]
  cases hx : T.get j with
  | none =>
    rw [hx] at hold
    cases hold
  | some x =>
    have hkey : x.key ≠ k := (Table.get_eq_some.mp hx).2.trans_ne hne
    rw [hx] at hold
    simpa [Option.filter, hkey] using hold

variable {F : Type} {fingerprint : ℕ → F}

/-- A session runs on Postgres. -/
structure Served (s : State F) : Prop where
  choice : s.choice = .postgres
  marker : s.onPostgres = true
  leads : Leads s.rows s.last
  finished : s.run.any Run.finished = true

/-- A switch back is on its way. -/
structure Leaving (s : State F) (live : Bool) : Prop where
  choice : s.choice = .postgres
  served : live = true → Served s

/-- A start on Postgres has done with the inbox. -/
structure Starting (s : State F) : Prop where
  choice : s.choice = .postgres
  marker : s.onPostgres = true

theorem Served.goto {s : State F} (h : Served s) (pc : Pc F) : Served (s.goto pc) :=
  ⟨h.choice, h.marker, h.leads, h.finished⟩

theorem Leaving.goto {s : State F} {live : Bool} (h : Leaving s live) (pc : Pc F) :
    Leaving (s.goto pc) live :=
  ⟨h.choice, fun hlive => (h.served hlive).goto pc⟩

theorem Starting.goto {s : State F} (h : Starting s) (pc : Pc F) : Starting (s.goto pc) :=
  ⟨h.choice, h.marker⟩

def Stands (fingerprint : ℕ → F) (s : State F) (f : File) : Prop :=
  match s.pc with
  | .off => True
  | .waiting | .inbox => s.choice = .postgres
  | .importing => Starting s
  | .restarting fp => Starting s ∧ s.run.any Run.finished = false ∧ s.run.isSome = true ∧
    fp = fingerprint f.version
  | .inserting fp => Starting s ∧ s.run = none ∧ fp = fingerprint f.version
  | .copying => Starting s ∧ s.run = some ⟨fingerprint f.version, false⟩
  | .merging => Starting s ∧ s.run.any Run.finished = true
  | .live => Served s
  | .opening | .sqliteLive => Leads f.rows s.last
  | .keeping => Leads f.rows s.last ∧ s.choice = .postgres
  | .planning live | .exporting live | .mergingBack live => Leaving s live
  | .recording live => Leaving s live ∧ Leads f.rows s.last ∧ Leads s.rows s.last ∧
    s.run.any Run.finished = true
  | .placing live | .unmarking live => Leaving s live ∧ Leads f.rows s.last
  | .committing live | .remarking live => s.choice = .postgres ∧ Leads f.rows s.last ∧
    (live = true → Leads s.rows s.last ∧ s.run.any Run.finished = true)

theorem Leaving.resting {s : State F} {f : File} {live : Bool} (h : Leaving s live) :
    Stands fingerprint (s.goto (resting live)) f := by
  cases live with
  | false => exact h.choice
  | true => exact (h.served rfl).goto _

theorem onStore_last {s t : State F} {change : Rows → Rows} (hs : s.onStore change = some t) :
    { t with last := s.last } = t := by
  unfold State.onStore at hs
  split at hs
  · obtain rfl := Option.some.inj hs
    rfl
  · obtain rfl := Option.some.inj hs
    rfl
  · cases hs

variable [DecidableEq F]

/-- The run is finished, under the fingerprint that state.db has now. -/
def State.recorded (fingerprint : ℕ → F) (s : State F) : Bool :=
  s.run.any fun r => r.finished && s.file.any fun f => r.fingerprint = fingerprint f.version

/-- The merge into state.db is next, and no session was running. -/
def Pc.mergesBackAlone : Pc F → Bool
  | .mergingBack false => true
  | _ => false

def Pc.isLive : Pc F → Bool
  | .live => true
  | _ => false

/-- A session writes to Postgres, and a switch back made without a session merges Postgres into
state.db, only while the run row has the fingerprint of state.db; and a merge into state.db that
fails leaves the file as it was. -/
def InStep (fingerprint : ℕ → F) (s : State F) : Action → Prop
  | .write _ => s.pc.isLive = true → s.recorded fingerprint = true
  | .advance => s.pc.mergesBackAlone = true → s.run.any Run.finished = true →
    s.recorded fingerprint = true
  | .fail touched => touched = false
  | _ => True

instance (fingerprint : ℕ → F) (s : State F) : (a : Action) → Decidable (InStep fingerprint s a)
  | .write _ => inferInstanceAs (Decidable (s.pc.isLive = true → s.recorded fingerprint = true))
  | .advance => inferInstanceAs (Decidable (s.pc.mergesBackAlone = true →
      s.run.any Run.finished = true → s.recorded fingerprint = true))
  | .fail touched => inferInstanceAs (Decidable (touched = false))
  | .start | .retry | .chunk _ | .ingest _ | .delete _ | .switchBack | .choose _ | .crash =>
    instDecidableTrue

/-- Which store leads is read off the run row: Postgres under the fingerprint of state.db, else
state.db; and state.db leads while it is chosen or the marker does not stand. -/
structure Ordered (fingerprint : ℕ → F) (s : State F) (f : File) : Prop where
  file : s.file = some f
  past : ∀ r, s.run = some r → ∃ v ≤ f.version, r.fingerprint = fingerprint v
  fresh : s.run = none → s.rows.rows = [] ∧ s.copied = []
  copied : s.run = some ⟨fingerprint f.version, false⟩ →
    ∀ k ∈ s.copied, s.rows.get k = f.rows.get k
  postgres : s.recorded fingerprint = true → Leads s.rows s.last
  sqlite : s.recorded fingerprint = false → Leads f.rows s.last
  marker : s.onPostgres = false → Leads f.rows s.last
  choice : s.choice = .sqlite → Leads f.rows s.last
  stands : Stands fingerprint s f

theorem recorded_some {s : State F} {f : File} {r : Run F} (hfile : s.file = some f)
    (hrun : s.run = some r) :
    s.recorded fingerprint = (r.finished && decide (r.fingerprint = fingerprint f.version)) := by
  simp [State.recorded, hfile, hrun]

theorem recorded_of_unfinished {s : State F} (h : s.run.any Run.finished = false) :
    s.recorded fingerprint = false := by
  unfold State.recorded
  cases hr : s.run with
  | none => rfl
  | some r =>
    rw [hr] at h
    have hfin : r.finished = false := h
    simp [hfin]

theorem Ordered.goto {s : State F} {f : File} {pc : Pc F} (h : Ordered fingerprint s f)
    (hstands : Stands fingerprint (s.goto pc) f) : Ordered fingerprint (s.goto pc) f :=
  ⟨h.file, h.past, h.fresh, h.copied, h.postgres, h.sqlite, h.marker, h.choice, hstands⟩

/-- The import's first look leaves it where it may go on. -/
theorem importPlan_ordered {s : State F} {f : File} (h : Ordered fingerprint s f)
    (hstart : Starting s) : Ordered fingerprint (s.goto (importPlan fingerprint s)) f := by
  refine h.goto ?_
  simp only [importPlan, h.file]
  match hrun : s.run with
  | none =>
    have hempty : s.rows.rows.isEmpty = true := by simp [(h.fresh hrun).1]
    simp only [hempty, if_true]
    exact ⟨hstart.goto _, hrun, rfl⟩
  | some ⟨_, true⟩ =>
    refine ⟨hstart.goto _, ?_⟩
    simp [State.goto, hrun]
  | some ⟨fp, false⟩ =>
    dsimp only
    split_ifs with hsame
    · subst hsame
      exact ⟨hstart.goto _, hrun⟩
    · refine ⟨hstart.goto _, ?_, ?_, rfl⟩
      · simp [State.goto, hrun]
      · simp [State.goto, hrun]

/-- A run row of an earlier state.db is not of a later one. -/
theorem Ordered.stale {s : State F} {f : File} (hinj : Function.Injective fingerprint)
    (h : Ordered fingerprint s f) {r : Run F} (hrun : s.run = some r) :
    r.fingerprint ≠ fingerprint (f.version + 1) := by
  obtain ⟨v, hv, hfp⟩ := h.past r hrun
  intro heq
  have := hinj (hfp.symm.trans heq)
  omega

theorem Ordered.past_next {s : State F} {f : File} (h : Ordered fingerprint s f) {r : Run F}
    (hrun : s.run = some r) : ∃ v ≤ f.version + 1, r.fingerprint = fingerprint v := by
  obtain ⟨v, hv, hfp⟩ := h.past r hrun
  exact ⟨v, Nat.le_succ_of_le hv, hfp⟩

/-- state.db is written, and leads. -/
theorem Ordered.rewrite {s : State F} {f : File} {rows : Rows} {last : Key → Option Authored}
    {pc : Pc F} {onPostgres : Bool} (hinj : Function.Injective fingerprint)
    (h : Ordered fingerprint s f) (hleads : Leads rows last)
    (hstands : Stands fingerprint
      { s with file := some ⟨rows, f.version + 1⟩, last := last, onPostgres := onPostgres, pc := pc }
      ⟨rows, f.version + 1⟩) :
    Ordered fingerprint
      { s with file := some ⟨rows, f.version + 1⟩, last := last, onPostgres := onPostgres, pc := pc }
      ⟨rows, f.version + 1⟩ where
  file := rfl
  past _ hrun := h.past_next hrun
  fresh := h.fresh
  copied hrun := absurd rfl (h.stale hinj hrun)
  postgres hrec := by
    obtain ⟨r, hrun, hr⟩ := (Option.any_eq_true _ _).mp hrec
    rw [Bool.and_eq_true] at hr
    exact absurd (of_decide_eq_true hr.2) (h.stale hinj hrun)
  sqlite _ := hleads
  marker _ := hleads
  choice _ := hleads
  stands := hstands

/-- A copy with every key of state.db leads as state.db does. -/
theorem Ordered.copiedLeads {s : State F} {f : File} (h : Ordered fingerprint s f)
    (hrun : s.run = some ⟨fingerprint f.version, false⟩)
    (hall : (f.rows.rows.all fun r => decide (r.key ∈ s.copied)) = true) : Leads s.rows s.last := by
  have hleads : Leads f.rows s.last := h.sqlite (recorded_of_unfinished (by rw [hrun]; rfl))
  intro k a hk
  have hold := hleads k a hk
  cases hx : f.rows.get k with
  | none =>
    rw [hx] at hold
    cases hold
  | some x =>
    obtain ⟨hmem, hkey⟩ := Table.get_eq_some.mp hx
    have hcopied : k ∈ s.copied := by
      rw [← hkey]
      exact of_decide_eq_true (List.all_eq_true.mp hall x hmem)
    rw [h.copied hrun k hcopied]
    exact hold

/-- The run row gets the fingerprint of state.db. -/
theorem Ordered.record {s : State F} {f : File} {rows : Rows} {copied : List Key} {pc : Pc F}
    {run : Option (Run F)} (finished : Bool) (h : Ordered fingerprint s f)
    (hrun : run = some ⟨fingerprint f.version, finished⟩)
    (hcopied : finished = false → ∀ k ∈ copied, rows.get k = f.rows.get k)
    (hpostgres : finished = true → Leads rows s.last)
    (hsqlite : finished = false → Leads f.rows s.last)
    (hstands : Stands fingerprint { s with rows := rows, copied := copied, run := run, pc := pc } f) :
    Ordered fingerprint { s with rows := rows, copied := copied, run := run, pc := pc } f := by
  subst hrun
  have hrec : State.recorded fingerprint { s with
      rows := rows, copied := copied, run := some ⟨fingerprint f.version, finished⟩, pc := pc } =
      finished := by
    simp [State.recorded, h.file]
  refine ⟨h.file, ?_, nofun, ?_, ?_, ?_, h.marker, h.choice, hstands⟩
  · intro r hr
    obtain rfl := Option.some.inj hr
    exact ⟨f.version, le_rfl, rfl⟩
  · intro hr
    have hfin : finished = false := congrArg Run.finished (Option.some.inj hr)
    exact hcopied hfin
  · intro hr
    exact hpostgres (hrec ▸ hr)
  · intro hr
    exact hsqlite (hrec ▸ hr)

theorem firstSwitchCopy_ordered {s t : State F} {f : File} (h : Ordered fingerprint s f)
    (hs : firstSwitchCopy fingerprint s = some t) : Ordered fingerprint t f := by
  have hstands := h.stands
  unfold firstSwitchCopy at hs
  split at hs
  · next hpc =>
    obtain rfl := Option.some.inj hs
    simp only [Stands, hpc] at hstands
    exact ⟨h.file, h.past, h.fresh, h.copied, h.postgres, h.sqlite, nofun, h.choice, hstands, rfl⟩
  · next hpc =>
    obtain rfl := Option.some.inj hs
    simp only [Stands, hpc] at hstands
    exact importPlan_ordered h hstands
  · next fp hpc =>
    obtain rfl := Option.some.inj hs
    simp only [Stands, hpc] at hstands
    obtain ⟨hstart, hopen, hsome, rfl⟩ := hstands
    have hleads := h.sqlite (recorded_of_unfinished hopen)
    obtain ⟨r, hr⟩ := Option.isSome_iff_exists.mp hsome
    have hrun : (s.run.map fun r => { r with fingerprint := fingerprint f.version }) =
        some ⟨fingerprint f.version, false⟩ := by
      rw [hr] at hopen
      have hfin : r.finished = false := hopen
      rw [hr, Option.map_some, hfin]
    exact h.record false hrun (fun _ => nofun) nofun (fun _ => hleads)
      ⟨⟨hstart.choice, hstart.marker⟩, hrun⟩
  · next fp hpc =>
    obtain rfl := Option.some.inj hs
    simp only [Stands, hpc] at hstands
    obtain ⟨hstart, hrun, rfl⟩ := hstands
    obtain ⟨-, hcopied⟩ := h.fresh hrun
    have hleads := h.sqlite (recorded_of_unfinished (by rw [hrun]; rfl))
    refine h.record false rfl (fun _ k hk => ?_) nofun (fun _ => hleads)
      ⟨⟨hstart.choice, hstart.marker⟩, rfl⟩
    rw [hcopied] at hk
    cases hk
  · next g hpc hfile =>
    obtain rfl : g = f := Option.some.inj (hfile.symm.trans h.file)
    simp only [Stands, hpc] at hstands
    obtain ⟨hstart, hrun⟩ := hstands
    split_ifs at hs with hall hlen <;> obtain rfl := Option.some.inj hs
    · have hleads := h.copiedLeads hrun hall
      have hrun' : (s.run.map fun r => { r with finished := true }) =
          some ⟨fingerprint g.version, true⟩ := by
        rw [hrun, Option.map_some]
      exact h.record true hrun' nofun (fun _ => hleads) nofun
        ⟨hstart.choice, hstart.marker, hleads, by rw [hrun']; rfl⟩
    · exact h.goto hstart.choice
  · next g hpc hfile =>
    obtain rfl : g = f := Option.some.inj (hfile.symm.trans h.file)
    simp only [Stands, hpc] at hstands
    obtain ⟨hstart, hfin⟩ := hstands
    obtain ⟨r, hr, hdone⟩ := (Option.any_eq_true _ _).mp hfin
    have hrec : s.recorded fingerprint = decide (r.fingerprint = fingerprint g.version) := by
      rw [recorded_some h.file hr, hdone, Bool.true_and]
    split_ifs at hs with hsame <;> obtain rfl := Option.some.inj hs
    · have hrecorded : s.recorded fingerprint = true := by
        rw [hrec]
        rw [hr] at hsame
        exact hsame
      exact h.goto ⟨hstart.choice, hstart.marker, h.postgres hrecorded, hfin⟩
    · have hbehind : s.recorded fingerprint = false := by
        rw [hrec]
        rw [hr] at hsame
        exact Bool.eq_false_iff.mpr hsame
      have hleads := (h.sqlite hbehind).merge s.rows
      have hrun : (s.run.map fun r => { r with fingerprint := fingerprint g.version }) =
          some ⟨fingerprint g.version, true⟩ := by
        rw [hr, Option.map_some, hdone]
      exact h.record true hrun nofun (fun _ => hleads) nofun
        ⟨hstart.choice, hstart.marker, hleads, by rw [hrun]; rfl⟩
  · cases hs

theorem openDb_ordered {s t : State F} {f : File} (h : Ordered fingerprint s f)
    (hs : openDb s = some t) : Ordered fingerprint t f := by
  have hstands := h.stands
  unfold openDb at hs
  split at hs
  · next hpc =>
    obtain rfl := Option.some.inj hs
    simp only [Stands, hpc] at hstands
    have hfile : some (s.file.getD ⟨.empty, 0⟩) = s.file := by rw [h.file, Option.getD_some]
    rw [hfile]
    exact ⟨h.file, h.past, h.fresh, h.copied, h.postgres, h.sqlite, fun _ => hstands,
      fun _ => hstands, hstands⟩
  · cases hs

/-- Postgres leads when its rows are merged into state.db. -/
theorem mergeStateBack_ordered {s : State F} {f : File} {live : Bool}
    (hinj : Function.Injective fingerprint) (h : Ordered fingerprint s f) (hleaving : Leaving s live)
    (halone : live = false → s.run.any Run.finished = true → s.recorded fingerprint = true) :
    ∃ g, Ordered fingerprint (mergeStateBack s live) g := by
  unfold mergeStateBack
  rw [h.file]
  dsimp only
  split_ifs with hfin
  · have hpostgres : Leads s.rows s.last := by
      cases live with
      | false => exact h.postgres (halone rfl hfin)
      | true => exact (hleaving.served rfl).leads
    have hmerged : Leads (merge f.rows s.rows) s.last := hpostgres.merge f.rows
    refine ⟨⟨merge f.rows s.rows, f.version + 1⟩, h.rewrite hinj hmerged ?_⟩
    refine ⟨⟨hleaving.choice, fun hlive => ?_⟩, hmerged, hpostgres, hfin⟩
    exact ⟨hleaving.choice, (hleaving.served hlive).marker, hpostgres, hfin⟩
  · have hleads := h.sqlite (recorded_of_unfinished (Bool.eq_false_iff.mpr hfin))
    exact ⟨f, h.goto ⟨hleaving.goto _, hleads⟩⟩

theorem switchBackToSqlite_ordered {s t : State F} {f : File}
    (hinj : Function.Injective fingerprint) (h : Ordered fingerprint s f)
    (hok : InStep fingerprint s .advance) (hs : switchBackToSqlite fingerprint s = some t) :
    ∃ g, Ordered fingerprint t g := by
  have hstands := h.stands
  unfold switchBackToSqlite at hs
  split at hs
  · next live hpc =>
    obtain rfl := Option.some.inj hs
    simp only [Stands, hpc] at hstands
    refine ⟨f, h.goto ?_⟩
    split_ifs with hkeep
    · exact ⟨h.marker hkeep.2, hstands.choice⟩
    · exact hstands.goto _
  · next hpc =>
    obtain rfl := Option.some.inj hs
    simp only [Stands, hpc] at hstands
    exact ⟨f, h.file, h.past, h.fresh, h.copied, h.postgres, h.sqlite, h.marker,
      fun _ => hstands.1, trivial⟩
  · next live hpc =>
    obtain rfl := Option.some.inj hs
    simp only [Stands, hpc] at hstands
    exact ⟨f, h.goto (hstands.goto _)⟩
  · next live hpc =>
    obtain rfl := Option.some.inj hs
    simp only [Stands, hpc] at hstands
    refine mergeStateBack_ordered hinj h hstands fun hlive hfin => hok ?_ hfin
    rw [hpc, hlive]
    rfl
  · next live g hpc hfile =>
    obtain rfl : g = f := Option.some.inj (hfile.symm.trans h.file)
    obtain rfl := Option.some.inj hs
    simp only [Stands, hpc] at hstands
    obtain ⟨hleaving, hfileLeads, hpostgres, hfin⟩ := hstands
    obtain ⟨r, hr, hdone⟩ := (Option.any_eq_true _ _).mp hfin
    have hrun : (s.run.map fun r => { r with fingerprint := fingerprint g.version }) =
        some ⟨fingerprint g.version, true⟩ := by
      rw [hr, Option.map_some, hdone]
    refine ⟨g, h.record true hrun nofun (fun _ => hpostgres) nofun ⟨⟨hleaving.choice, ?_⟩, ?_⟩⟩
    · intro hlive
      exact ⟨hleaving.choice, (hleaving.served hlive).marker, hpostgres, by rw [hrun]; rfl⟩
    · exact hfileLeads
  · next live hpc =>
    obtain rfl := Option.some.inj hs
    simp only [Stands, hpc] at hstands
    exact ⟨f, h.goto ⟨hstands.1.goto _, hstands.2⟩⟩
  · next live hpc =>
    obtain rfl := Option.some.inj hs
    simp only [Stands, hpc] at hstands
    obtain ⟨hleaving, hleads⟩ := hstands
    exact ⟨f, h.file, h.past, h.fresh, h.copied, h.postgres, h.sqlite, fun _ => hleads, h.choice,
      hleaving.choice, hleads, fun hlive =>
        ⟨(hleaving.served hlive).leads, (hleaving.served hlive).finished⟩⟩
  · next live hpc =>
    obtain rfl := Option.some.inj hs
    simp only [Stands, hpc] at hstands
    exact ⟨f, h.file, h.past, h.fresh, h.copied, h.postgres, h.sqlite, h.marker,
      fun _ => hstands.2.1, trivial⟩
  · next live hpc =>
    obtain rfl := Option.some.inj hs
    simp only [Stands, hpc] at hstands
    obtain ⟨hchoice, -, hpostgres⟩ := hstands
    refine ⟨f, h.file, h.past, h.fresh, h.copied, h.postgres, h.sqlite, nofun, h.choice, ?_⟩
    cases live with
    | false => exact hchoice
    | true => exact ⟨hchoice, rfl, (hpostgres rfl).1, (hpostgres rfl).2⟩
  · cases hs

theorem fail_ordered {s t : State F} {f : File} (h : Ordered fingerprint s f)
    (hs : fail s false = some t) : Ordered fingerprint t f := by
  have hstands := h.stands
  unfold fail at hs
  split at hs
  case h_1 hpc =>
    obtain rfl := Option.some.inj hs
    simp only [Stands, hpc] at hstands
    exact h.goto hstands
  case h_2 hpc =>
    obtain rfl := Option.some.inj hs
    simp only [Stands, hpc] at hstands
    exact h.goto hstands.choice
  case h_3 hpc | h_4 hpc | h_5 hpc | h_6 hpc =>
    obtain rfl := Option.some.inj hs
    simp only [Stands, hpc] at hstands
    exact h.goto hstands.1.choice
  case h_7 hpc | h_8 hpc =>
    obtain rfl := Option.some.inj hs
    simp only [Stands, hpc] at hstands
    exact h.goto hstands.resting
  case h_9 hpc | h_10 hpc =>
    obtain rfl := Option.some.inj hs
    simp only [Stands, hpc] at hstands
    exact h.goto hstands.1.resting
  case h_11 hpc =>
    obtain rfl := Option.some.inj hs
    simp only [Stands, hpc] at hstands
    exact h.goto hstands.2
  case h_12 hpc =>
    simp only [Bool.false_eq_true, if_false, Option.map_id'] at hs
    obtain rfl := Option.some.inj hs
    simp only [Stands, hpc] at hstands
    exact h.goto hstands.resting
  case h_13 hpc =>
    obtain rfl := Option.some.inj hs
    simp only [Stands, hpc] at hstands
    exact h.goto hstands
  case h_14 => cases hs

theorem get_foldl_insertIgnore (rows : List Row) (T : Rows) (k : Key) :
    (rows.foldl Table.insertIgnore T).get k =
      (T.get k).or (rows.find? fun r => r.key = k) := by
  induction rows generalizing T with
  | nil => simp
  | cons r rows ih =>
    rw [List.foldl_cons, ih, Table.get_insertIgnore]
    by_cases hk : r.key = k
    · rw [List.find?_cons_of_pos (by simpa using hk)]
      cases hT : T.get k with
      | none => simp [hk.symm]
      | some x => simp
    · rw [List.find?_cons_of_neg (by simpa using hk), if_neg (fun h => hk h.1.symm)]

/-- A chunk of state.db goes into the tables together with its progress. -/
theorem Ordered.chunk {s : State F} {f : File} {rows : List Row} (h : Ordered fingerprint s f)
    (hpc : s.pc = .copying) (hsub : ∀ r ∈ rows, r ∈ f.rows.rows)
    (hnew : ∀ r ∈ rows, s.rows.get r.key = none) :
    Ordered fingerprint { s with
      rows := rows.foldl Table.insertIgnore s.rows, copied := s.copied ++ rows.map Row.key } f := by
  have hstands := h.stands
  simp only [Stands, hpc] at hstands
  obtain ⟨hstart, hrun⟩ := hstands
  have hopen : s.recorded fingerprint = false := recorded_of_unfinished (by rw [hrun]; rfl)
  refine ⟨h.file, h.past, ?_, ?_, ?_, h.sqlite, h.marker, h.choice, ?_⟩
  · intro hnone
    exact absurd (hrun.symm.trans hnone) nofun
  · intro _ k hk
    rw [get_foldl_insertIgnore]
    rcases List.mem_append.mp hk with hk | hk
    · rw [h.copied hrun k hk]
      cases hx : f.rows.get k with
      | some x => rfl
      | none =>
        rw [Option.none_or, List.find?_eq_none]
        intro r hr hkey
        exact Table.get_eq_none.mp hx r (hsub r hr) (of_decide_eq_true hkey)
    · obtain ⟨r, hr, rfl⟩ := List.mem_map.mp hk
      rw [hnew r hr, Option.none_or]
      cases hx : rows.find? fun x => x.key = r.key with
      | none =>
        rw [List.find?_eq_none] at hx
        exact absurd (decide_eq_true rfl) (hx r hr)
      | some x =>
        have hkey : x.key = r.key := by simpa using List.find?_some hx
        exact (Table.get_eq_some.mpr ⟨hsub x (List.mem_of_find?_eq_some hx), hkey⟩).symm
  · intro hrec
    exact absurd (hopen.symm.trans hrec) nofun
  · simp only [Stands, hpc]
    exact ⟨⟨hstart.choice, hstart.marker⟩, hrun⟩

/-- A session on Postgres changes its tables, which lead. -/
theorem Ordered.serve {s : State F} {f : File} {rows : Rows} {last : Key → Option Authored}
    (h : Ordered fingerprint s f) (hpc : s.pc = .live) (hserved : Served s)
    (hleads : Leads rows last) (hfile : s.recorded fingerprint = false → Leads f.rows last) :
    Ordered fingerprint { s with rows := rows, last := last } f := by
  obtain ⟨r, hr, hdone⟩ := (Option.any_eq_true _ _).mp hserved.finished
  refine ⟨h.file, h.past, ?_, ?_, fun _ => hleads, hfile, ?_, ?_, ?_⟩
  · intro hnone
    exact absurd (hr.symm.trans hnone) nofun
  · intro hrun
    obtain rfl := Option.some.inj (hr.symm.trans hrun)
    cases hdone
  · intro hmarker
    exact absurd (hserved.marker.symm.trans hmarker) nofun
  · intro hchoice
    exact absurd (hserved.choice.symm.trans hchoice) nofun
  · simp only [Stands, hpc]
    exact ⟨hserved.choice, hserved.marker, hleads, hserved.finished⟩

/-- A session changes the tables of the store it runs on. -/
theorem onStore_ordered {s t : State F} {f : File} {change : Rows → Rows}
    {last : Key → Option Authored} (hinj : Function.Injective fingerprint)
    (h : Ordered fingerprint s f) (hchange : ∀ T, Leads T s.last → Leads (change T) last)
    (hfile : s.pc.isLive = true → s.recorded fingerprint = false → Leads f.rows last)
    (hs : s.onStore change = some t) :
    ∃ g, Ordered fingerprint { t with last := last } g := by
  have hstands := h.stands
  unfold State.onStore at hs
  split at hs
  · next hpc =>
    obtain rfl := Option.some.inj hs
    simp only [Stands, hpc] at hstands
    exact ⟨f, h.serve hpc hstands (hchange _ hstands.leads) (hfile (by rw [hpc]; rfl))⟩
  · next g hpc hg =>
    obtain rfl : g = f := Option.some.inj (hg.symm.trans h.file)
    obtain rfl := Option.some.inj hs
    simp only [Stands, hpc] at hstands
    have hleads := hchange g.rows hstands
    have hwritten : Ordered fingerprint
        { s with
          file := some ⟨change g.rows, g.version + 1⟩, last := last, onPostgres := s.onPostgres
          pc := s.pc } ⟨change g.rows, g.version + 1⟩ := by
      refine h.rewrite hinj hleads ?_
      simp only [Stands, hpc]
      exact hleads
    exact ⟨_, hwritten⟩
  · cases hs

theorem Leads.forget {T : Rows} {last : Key → Option Authored} (h : Leads T last) (k : Key) :
    Leads T (Function.update last k none) := by
  intro j a hj
  by_cases heq : j = k
  · rw [heq, Function.update_self] at hj
    cases hj
  · rw [Function.update_of_ne heq] at hj
    exact h j a hj

theorem step_ordered {s t : State F} {f : File} {a : Action}
    (hinj : Function.Injective fingerprint) (h : Ordered fingerprint s f)
    (hok : InStep fingerprint s a) (hs : step fingerprint s a = some t) :
    ∃ g, Ordered fingerprint t g := by
  have hstands := h.stands
  cases a with
  | start =>
    simp only [step] at hs
    split at hs
    · next hpc hchoice =>
      obtain rfl := Option.some.inj hs
      exact ⟨f, h.goto (h.choice hchoice)⟩
    · next hpc hchoice =>
      obtain rfl := Option.some.inj hs
      exact ⟨f, h.goto hchoice⟩
    · cases hs
  | retry =>
    simp only [step] at hs
    split at hs
    · next hpc =>
      obtain rfl := Option.some.inj hs
      simp only [Stands, hpc] at hstands
      exact ⟨f, h.goto hstands⟩
    · cases hs
  | advance =>
    rcases Option.or_eq_some_iff.mp hs with hs | ⟨-, hs⟩
    · exact ⟨f, firstSwitchCopy_ordered h hs⟩
    · rcases Option.or_eq_some_iff.mp hs with hs | ⟨-, hs⟩
      · exact ⟨f, openDb_ordered h hs⟩
      · exact switchBackToSqlite_ordered hinj h hok hs
  | fail touched =>
    obtain rfl : touched = false := hok
    exact ⟨f, fail_ordered h hs⟩
  | chunk keys =>
    simp only [step] at hs
    split at hs
    · next g hpc hg =>
      obtain rfl : g = f := Option.some.inj (hg.symm.trans h.file)
      split_ifs at hs with hnew
      obtain rfl := Option.some.inj hs
      refine ⟨g, h.chunk hpc (fun r hr => (List.mem_filter.mp hr).1) fun r hr => ?_⟩
      exact Option.isNone_iff_eq_none.mp (List.all_eq_true.mp hnew r hr)
    · cases hs
  | write r =>
    obtain ⟨u, hu, rfl⟩ := Option.map_eq_some_iff.mp hs
    refine onStore_ordered hinj h (fun T hT => hT.put r) (fun hlive hrec => ?_) hu
    exact absurd (hrec.symm.trans (hok hlive)) (by simp)
  | ingest r =>
    have hstore : s.onStore (fun T => ingest T r) = some t := hs
    have hchange : ∀ T, Leads T s.last → Leads (ingest T r) s.last := fun T hT => hT.ingest r
    rw [← onStore_last hstore]
    exact onStore_ordered hinj h hchange (fun _ hrec => h.sqlite hrec) hstore
  | delete k =>
    obtain ⟨u, hu, rfl⟩ := Option.map_eq_some_iff.mp hs
    exact onStore_ordered hinj h (fun T hT => hT.delete k)
      (fun _ hrec => (h.sqlite hrec).forget k) hu
  | switchBack =>
    simp only [step] at hs
    split at hs
    · next hpc =>
      obtain rfl := Option.some.inj hs
      simp only [Stands, hpc] at hstands
      exact ⟨f, h.goto ⟨hstands.choice, fun _ => hstands.goto _⟩⟩
    · next hpc =>
      obtain rfl := Option.some.inj hs
      simp only [Stands, hpc] at hstands
      exact ⟨f, h.goto ⟨hstands, by simp⟩⟩
    · cases hs
  | choose store =>
    simp only [step] at hs
    split at hs
    · next hpc =>
      obtain rfl := Option.some.inj hs
      simp only [Stands, hpc] at hstands
      refine ⟨f, h.file, h.past, h.fresh, h.copied, h.postgres, h.sqlite, h.marker,
        fun _ => hstands, ?_⟩
      simp only [Stands, hpc]
      exact hstands
    · cases hs
  | crash =>
    obtain rfl := Option.some.inj hs
    exact ⟨f, h.goto trivial⟩

/-- The tables of the store a session runs on. -/
def State.served (s : State F) : Option Rows :=
  match s.pc with
  | .live => some s.rows
  | .sqliteLive => s.file.map File.rows
  | _ => none

/-- state.db beside an empty Postgres store, before the app starts. -/
structure Fresh (s : State F) (f : File) : Prop where
  file : s.file = some f
  run : s.run = none
  rows : s.rows.rows = []
  copied : s.copied = []
  leads : Leads f.rows s.last
  pc : s.pc = .off

theorem Fresh.ordered {s : State F} {f : File} (h : Fresh s f) : Ordered fingerprint s f where
  file := h.file
  past r hr := absurd (h.run.symm.trans hr) nofun
  fresh _ := ⟨h.rows, h.copied⟩
  copied hr := absurd (h.run.symm.trans hr) nofun
  postgres hrec := by
    rw [State.recorded, h.run] at hrec
    cases hrec
  sqlite _ := h.leads
  marker _ := h.leads
  choice _ := h.leads
  stands := by
    simp only [Stands, h.pc]

/-- In every run whose steps keep the run row in step with state.db, the store a session runs on
holds what live sessions wrote last. -/
theorem served_holds_last (fingerprint : ℕ → F) (hinj : Function.Injective fingerprint)
    (s₀ : State F) (f₀ : File) (h₀ : Fresh s₀ f₀) (as : List Action) (s : State F)
    (hrun : run (step fingerprint) s₀ as = some s)
    (hok : Along (step fingerprint) (InStep fingerprint) s₀ as) (T : Rows)
    (hT : s.served = some T) : Leads T s.last := by
  have h : ∃ f, Ordered fingerprint s f := by
    refine run_invariant_along (I := fun s => ∃ f, Ordered fingerprint s f) ?_ ⟨f₀, h₀.ordered⟩
      hrun hok
    intro s a t ⟨f, hf⟩ hok hs
    exact step_ordered hinj hf hok hs
  obtain ⟨f, hf⟩ := h
  have hstands := hf.stands
  unfold State.served at hT
  split at hT
  · next hpc =>
    obtain rfl := Option.some.inj hT
    simp only [Stands, hpc] at hstands
    exact hstands.leads
  · next hpc =>
    rw [hf.file] at hT
    obtain rfl := Option.some.inj hT
    simp only [Stands, hpc] at hstands
    exact hstands
  · cases hT

/-- An exposure of one port under a label. -/
def labelled (label : String) : Row :=
  .exposure { id := "p", workspaceId := "w", port := 80, label := some label, source := "scan" }

/-- An empty state.db beside an empty Postgres store that is chosen. -/
def neverWritten : State ℕ where
  choice := .postgres
  onPostgres := false
  file := some ⟨.empty, 0⟩
  rows := .empty
  run := none
  copied := []
  last _ := none
  pc := .off

/-- A first start on Postgres, and a write there. -/
def labelsOnPostgres (label : String) : List Action :=
  (.start :: List.replicate 4 .advance : List Action) ++ ([.write (labelled label)] : List Action)

def switchesBack : List Action := .switchBack :: List.replicate 7 .advance

/-- A SQLite start, and a write there. -/
def labelsOnSqlite (label : String) : List Action :=
  [.start, .advance, .write (labelled label)]

/-- A session runs, and its store holds under a key what was written last there. -/
def State.upToDate (s : State ℕ) (k : Key) : Bool :=
  s.served.any fun T => (T.get k).map Row.authored = s.last k

/-- A session runs, and its store does not hold under a key what was written last there. -/
def State.outdated (s : State ℕ) (k : Key) : Bool :=
  s.served.any fun T => (s.last k).any fun a => (T.get k).map Row.authored ≠ some a

theorem State.not_leads_of_outdated {s : State ℕ} {k : Key} (h : s.outdated k = true) :
    ∃ T, s.served = some T ∧ ¬ Leads T s.last := by
  obtain ⟨T, hT, h⟩ := (Option.any_eq_true _ _).mp h
  obtain ⟨a, ha, hne⟩ := (Option.any_eq_true _ _).mp h
  exact ⟨T, hT, fun hleads => of_decide_eq_true hne (hleads k a ha)⟩

/-- To Postgres, back, a write on SQLite, and to Postgres again. -/
def thereAndBack : List Action :=
  labelsOnPostgres "a" ++ switchesBack ++ labelsOnSqlite "b" ++
    ([.choose .postgres, .crash, .start, .advance, .advance, .advance] : List Action)

theorem served_holds_last_thereAndBack :
    ((run (step id) neverWritten thereAndBack).any fun s =>
      s.upToDate (.exposure "p") && decide (s.last (.exposure "p") = some (labelled "b").authored)) =
        true ∧
    ∀ s T, run (step id) neverWritten thereAndBack = some s → s.served = some T →
      Leads T s.last :=
  ⟨by decide +kernel, fun s T hrun hT =>
    served_holds_last id Function.injective_id neverWritten ⟨.empty, 0⟩
      ⟨rfl, rfl, rfl, rfl, fun _ _ => nofun, rfl⟩ thereAndBack s hrun (by decide +kernel) T hT⟩

/-- A switch back that merges into state.db and fails to record its fingerprint; the session goes
on, and the next start merges state.db over what it writes. -/
def unrecorded : List Action :=
  labelsOnPostgres "a" ++ (.switchBack :: List.replicate 3 .advance : List Action) ++
    ([.fail false, .write (labelled "b"), .crash, .start, .advance, .advance,
      .advance] : List Action)

/-- A start on Postgres that fails before state.db is merged in, and a switch back from there. -/
def switchedBackAlone : List Action :=
  labelsOnPostgres "a" ++ switchesBack ++ labelsOnSqlite "b" ++
    ([.choose .postgres, .crash, .start, .advance, .fail false] : List Action) ++ switchesBack ++
    ([.start, .advance] : List Action)

/-- A switch back whose merge rolls back, but leaves state.db with another fingerprint. -/
def touchedBack : List Action :=
  labelsOnPostgres "a" ++ switchesBack ++
    ([.start, .advance, .choose .postgres, .crash, .start] : List Action) ++
    ([.advance, .advance, .advance, .write (labelled "b"), .switchBack, .advance,
      .advance] : List Action) ++
    ([.fail true, .crash, .start, .advance, .advance, .advance] : List Action)

theorem served_loses_last :
    (∃ s T, run (step id) neverWritten unrecorded = some s ∧ s.served = some T ∧
      ¬ Leads T s.last) ∧
    (∃ s T, run (step id) neverWritten switchedBackAlone = some s ∧ s.served = some T ∧
      ¬ Leads T s.last) ∧
    ∃ s T, run (step id) neverWritten touchedBack = some s ∧ s.served = some T ∧
      ¬ Leads T s.last := by
  refine ⟨?_, ?_, ?_⟩
  · have h : ((run (step id) neverWritten unrecorded).any fun s =>
        s.outdated (.exposure "p")) = true := by decide +kernel
    obtain ⟨s, hrun, hs⟩ := (Option.any_eq_true _ _).mp h
    obtain ⟨T, hT, hnot⟩ := State.not_leads_of_outdated hs
    exact ⟨s, T, hrun, hT, hnot⟩
  · have h : ((run (step id) neverWritten switchedBackAlone).any fun s =>
        s.outdated (.exposure "p")) = true := by decide +kernel
    obtain ⟨s, hrun, hs⟩ := (Option.any_eq_true _ _).mp h
    obtain ⟨T, hT, hnot⟩ := State.not_leads_of_outdated hs
    exact ⟨s, T, hrun, hT, hnot⟩
  · have h : ((run (step id) neverWritten touchedBack).any fun s =>
        s.outdated (.exposure "p")) = true := by decide +kernel
    obtain ⟨s, hrun, hs⟩ := (Option.any_eq_true _ _).mp h
    obtain ⟨T, hT, hnot⟩ := State.not_leads_of_outdated hs
    exact ⟨s, T, hrun, hT, hnot⟩

end ClaudeFleet.UserState
