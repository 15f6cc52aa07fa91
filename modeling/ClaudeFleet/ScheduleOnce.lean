import Mathlib.Tactic
import ClaudeFleet.ScheduleTicks

/-! No schedule slot fires twice and none is taken without a start: what every run of the ticks
and the other writers keeps. -/
namespace ClaudeFleet.Automations
open Transition

def Event.starts (f : Fire) : Event → Bool
  | .started g _ => g == f
  | _ => false

def Event.guards (f : Fire) : Event → Bool
  | .guarded g _ => g == f
  | _ => false

/-- An edit or a switch of the automation. -/
def Event.disturbs (id : String) : Event → Bool
  | .edited i => i == id
  | .switched i _ => i == id
  | _ => false

def TickPc.fire? : TickPc → Option Fire
  | .clearing f _ => some f
  | .starting f _ => some f
  | _ => none

def TickPc.now? : TickPc → Option ℤ
  | .idle => none
  | .listing t => some t
  | .rows t _ => some t
  | .clearing f _ => some f.now
  | .starting f _ => some f.now

def TickPc.rest : TickPc → List AutomationRecord
  | .rows _ rest => rest
  | .clearing _ rest => rest
  | .starting _ rest => rest
  | _ => []

def AutomationRecord.choice (r : AutomationRecord) : Option Event :=
  r.nextRunAt.bind fun t => r.nextRunBy.map fun n => .chosen r.id n t

/-- Before any tick: the log holds the next fires already in the table, each with its run. -/
structure Initial (s : State) : Prop where
  tick : s.tick = .idle
  settles : ∀ n, s.settles n = none
  log : s.log = s.table.rows.filterMap AutomationRecord.choice
  chosenBy : ∀ r ∈ s.table.rows, r.nextRunAt.isSome = r.nextRunBy.isSome
  runs : ∀ r ∈ s.table.rows, ∀ n, r.nextRunBy = some n → n < s.runs

section Statement
variable {Spec : Type} (crons : Crons Spec) (slots : Spec → Option String → Set ℤ)

/-- A slot of the cron that fired lies after `t`. -/
def SlotAfter (t : ℤ) (f : Fire) : Prop :=
  ∃ sch ∈ scheduleTriggers f.listed, ∃ spec, crons.parseCron sch.cron = some spec ∧
    f.due.cron = some sch.cron ∧ ∃ u ∈ slots spec sch.tz, t < u ∧ u ≤ f.now

/-- The due of a fire is the one of the row its first write met: the time a run chose for it, or
the earliest slot of its schedule. -/
def FireDue (f : Fire) (row : AutomationRecord) : Prop :=
  row.id = f.listed.id ∧ row.enabled = true ∧ row.definition = f.listed.definition ∧
    ((f.due.kind = .rescheduled ∧ row.nextRunAt = some f.due.slot ∧ f.due.slot ≤ f.now) ∨
      (f.due.kind ≠ .rescheduled ∧ row.nextRunAt = none ∧
        EarliestDue crons slots f.listed f.now f.due))

/-- The next fire that `run` chose is written before, and no edit or switch of the automation lies
in between. -/
def ChosenIn (log : List Event) (id : String) (run : ℕ) (time : ℤ) : Prop :=
  ∃ earlier later, log = earlier ++ .chosen id run time :: later ∧
    ∀ e ∈ later, e.disturbs id = false

structure FiresOnce (s : State) : Prop where
  separated : ∀ before f o between f' o' after,
    s.log = before ++ .started f o :: (between ++ .started f' o' :: after) →
      f.listed.id = f'.listed.id →
        (∃ run, .consumed f' run ∈ between) ∨ SlotAfter crons slots f.now f'
  consumedOnce : ∀ before f run between f' run' after,
    s.log = before ++ .consumed f run :: (between ++ .consumed f' run' :: after) →
      f.listed.id = f'.listed.id → run ≠ run'
  undisturbed : ∀ before f run after, s.log = before ++ .consumed f run :: after →
    ChosenIn before f.listed.id run f.due.slot
  consumes : ∀ f o, .started f o ∈ s.log → f.due.kind = .rescheduled →
    ∃ run, .consumed f run ∈ s.log
  due : ∀ f row, .guarded f row ∈ s.log → FireDue crons slots f row
  guardedFirst : ∀ f o, .started f o ∈ s.log → ∃ row, .guarded f row ∈ s.log
  guardedOnce : ∀ f row, .guarded f row ∈ s.log → s.log.countP (Event.guards f) = 1
  startedOnce : ∀ f row, .guarded f row ∈ s.log →
    s.log.countP (Event.starts f) = if s.tick.fire? = some f then 0 else 1

end Statement

/-- A write that would undo the first conditional write of the fire the tick is clearing. -/
def Undisturbed (s : State) (a : Action) : Prop :=
  ∀ f rest, s.tick = .clearing f rest →
    match a with
    | .update id _ _ => id ≠ f.listed.id
    | .setEnabled id _ _ => id ≠ f.listed.id
    | .settleWrite n => ∀ w, s.settles n = some w → w.id = f.listed.id →
        w.applied = f.listed.nextRunAt
    | _ => True

instance (s : State) (a : Action) : Decidable (Undisturbed s a) :=
  match htick : s.tick with
  | .idle => isTrue fun f rest h => by rw [htick] at h; cases h
  | .listing t => isTrue fun f rest h => by rw [htick] at h; cases h
  | .rows t rows => isTrue fun f rest h => by rw [htick] at h; cases h
  | .starting g rows => isTrue fun f rest h => by rw [htick] at h; cases h
  | .clearing g rows =>
    match a with
    | .update id _ _ => decidable_of_iff (id ≠ g.listed.id) (by simp [Undisturbed, htick])
    | .setEnabled id _ _ => decidable_of_iff (id ≠ g.listed.id) (by simp [Undisturbed, htick])
    | .settleWrite n =>
      decidable_of_iff (∀ w ∈ s.settles n, w.id = g.listed.id → w.applied = g.listed.nextRunAt)
        (by simp [Undisturbed, htick])
    | .tick _ => isTrue fun _ _ _ => trivial
    | .advance _ _ => isTrue fun _ _ _ => trivial
    | .settle _ _ _ _ _ => isTrue fun _ _ _ => trivial
    | .settleRead _ => isTrue fun _ _ _ => trivial

/-- The tables differ in one row at most. -/
def Sets (T U : Rows) (r : AutomationRecord) : Prop :=
  ∀ k, U.get k = if k = r.id then some r else T.get k

section Steps
variable {Spec : Type} (crons : Crons Spec)

/-- Everything a step can do. -/
inductive Step (s : State) : Action → State → Prop
  | tick {now : ℤ} (hidle : s.tick = .idle) (hclock : s.clock ≤ now) :
    Step s (.tick now) { s with clock := now, tick := .listing now }
  | listed {now t : ℤ} {st : Standing} (htick : s.tick = .listing t) :
    Step s (.advance now st) { s with tick := .rows t (list s.table) }
  | ended {now t : ℤ} {st : Standing} (htick : s.tick = .rows t []) :
    Step s (.advance now st) { s with tick := .idle }
  | passed {now t : ℤ} {st : Standing} {a : AutomationRecord} {rest : List AutomationRecord}
    (htick : s.tick = .rows t (a :: rest)) :
    Step s (.advance now st) { s with tick := .rows t rest }
  | guarded {now t : ℤ} {st : Standing} {a row : AutomationRecord} {rest : List AutomationRecord}
    {due : Due} {U : Rows} (htick : s.tick = .rows t (a :: rest))
    (hdue : dueSchedule crons a t = some due) (hrow : s.table.get a.id = some row)
    (hguard : guarded ⟨a.version, some a.nextRunAt⟩ row = true)
    (hsets : Sets s.table U (row.scheduled t)) :
    Step s (.advance now st)
      { s with table := U, fires := s.fires + 1,
               tick := afterGuard ⟨s.fires, t, a, due⟩ rest,
               log := s.log ++ [.guarded ⟨s.fires, t, a, due⟩ row] }
  | spoiled {now : ℤ} {st : Standing} {f : Fire} {rest : List AutomationRecord}
    (htick : s.tick = .clearing f rest)
    (hguard : ∀ r, s.table.get f.listed.id = some r → guarded f.guard r = false) :
    Step s (.advance now st) { s with tick := .rows f.now rest }
  | cleared {now : ℤ} {st : Standing} {f : Fire} {rest : List AutomationRecord}
    {r : AutomationRecord} {U : Rows} (htick : s.tick = .clearing f rest)
    (hrow : s.table.get f.listed.id = some r) (hguard : guarded f.guard r = true)
    (hsets : Sets s.table U (r.withNext none)) :
    Step s (.advance now st)
      { s with table := U, tick := .starting f rest,
               log := s.log ++ [.consumed f (r.nextRunBy.getD 0)] }
  | started {now : ℤ} {st : Standing} {f : Fire} {rest : List AutomationRecord}
    {o : StartOutcome} (htick : s.tick = .starting f rest) :
    Step s (.advance now st)
      { s with tick := .rows f.now rest, log := s.log ++ [.started f o] }
  | threw {id : String} {d : AutomationDef} {v : Option ℕ} : Step s (.update id d v) s
  | edited {id : String} {d : AutomationDef} {v : Option ℕ} {r : AutomationRecord} {U : Rows}
    (hrow : s.table.get id = some r) (hsets : Sets s.table U (r.edited d)) :
    Step s (.update id d v) { s with table := U, log := s.log ++ [.edited id] }
  | switched {id : String} {enabled : Bool} {now : ℤ} {U : Rows} (hclock : s.clock ≤ now)
    (hU : ∀ k, U.get k = if k = id then (s.table.get k).map (AutomationRecord.switched enabled now)
      else s.table.get k) :
    Step s (.setEnabled id enabled now)
      { s with table := U, clock := now, log := s.log ++ [.switched id enabled] }
  | settling {id : String} {version : ℕ} {succeeded : Bool} {requestedAt now : ℤ} {w : Settle}
    (hclock : s.clock ≤ now) :
    Step s (.settle id version succeeded requestedAt now)
      { s with clock := now, runs := s.runs + 1,
               settles := Function.update s.settles s.runs (some w) }
  | settled {a : Action} {n : ℕ} {w : Settle} {o : Option Settle} (hw : s.settles n = some w) :
    Step s a { s with settles := Function.update s.settles n o }
  | chosen {n : ℕ} {w : Settle} {time : ℤ} {r : AutomationRecord} {U : Rows}
    (hw : s.settles n = some w) (happlied : w.applied = some time)
    (hrow : s.table.get w.id = some r) (hguard : guarded ⟨w.version, none⟩ r = true)
    (hsets : Sets s.table U (r.withNext (some (time, n)))) :
    Step s (.settleWrite n)
      { s with table := U, settles := Function.update s.settles n none,
               log := s.log ++ [.chosen w.id n time] }

variable {crons} {deps : Deps} {s s' : State}

theorem get_id {T : Rows} {id : String} {r : AutomationRecord} (h : T.get id = some r) :
    r.id = id := (Table.get_eq_some.mp h).2

theorem sets_of_get {T U : Rows} {id : String} {r x : AutomationRecord} (hget : T.get id = some r)
    (hx : x.id = r.id) (h : ∀ k, U.get k = if k = id then some x else T.get k) : Sets T U x := by
  intro k
  rw [h k, hx, get_id hget]

theorem stepRow_step {t now : ℤ} {st : Standing} {a : AutomationRecord}
    {rest : List AutomationRecord} (htick : s.tick = .rows t (a :: rest)) :
    Step crons s (.advance now st) (stepRow crons s t a rest) := by
  simp only [stepRow]
  cases hdue : dueSchedule crons a t with
  | none => exact .passed htick
  | some due =>
    cases hrow : s.table.get a.id with
    | none => exact .passed htick
    | some row =>
      dsimp only
      split_ifs with hw
      · obtain ⟨r, hr, hg, hU⟩ := conditional_true hw
        obtain rfl : row = r := Option.some.inj (hrow.symm.trans hr)
        exact .guarded htick hdue hrow hg (sets_of_get hrow rfl hU)
      · exact .passed htick

theorem stepClear_step {now : ℤ} {st : Standing} {f : Fire} {rest : List AutomationRecord}
    (htick : s.tick = .clearing f rest) :
    Step crons s (.advance now st) (stepClear s f rest) := by
  simp only [stepClear]
  split_ifs with hw
  · obtain ⟨r, hr, hg, hU⟩ := conditional_true hw
    rw [hr]
    exact .cleared htick hr hg (sets_of_get hr rfl hU)
  · refine .spoiled htick ?_
    intro r hr
    cases hg : ClaudeFleet.Automations.guarded f.guard r with
    | false => rfl
    | true => exact absurd (conditional_of_guarded hr hg) hw

theorem step_cases {a : Action} (h : step crons deps s a = some s') : Step crons s a s' := by
  cases a with
  | tick now =>
    simp only [step] at h
    split_ifs at h with hc
    obtain rfl := Option.some.inj h
    exact .tick hc.1 hc.2
  | advance now st =>
    simp only [step, stepTick] at h
    cases htick : s.tick with
    | idle => simp [htick] at h
    | listing t =>
      simp only [htick] at h
      exact Option.some.inj h ▸ .listed htick
    | rows t rows =>
      cases rows with
      | nil =>
        simp only [htick] at h
        exact Option.some.inj h ▸ .ended htick
      | cons a rest =>
        simp only [htick] at h
        exact Option.some.inj h ▸ stepRow_step htick
    | clearing f rest =>
      simp only [htick] at h
      exact Option.some.inj h ▸ stepClear_step htick
    | starting f rest =>
      simp only [htick] at h
      exact Option.some.inj h ▸ .started htick
  | update id d v =>
    simp only [step] at h
    obtain rfl := Option.some.inj h
    cases hu : update s.table id d v with
    | none => exact .threw
    | some U =>
      obtain ⟨r, hr, hU⟩ := update_some hu
      exact .edited hr (sets_of_get hr rfl hU)
  | setEnabled id enabled now =>
    simp only [step] at h
    split_ifs at h with hc
    obtain rfl := Option.some.inj h
    exact .switched hc fun k => setEnabled_get enabled now k
  | settle id version succeeded requestedAt now =>
    simp only [step] at h
    split_ifs at h with hc
    obtain rfl := Option.some.inj h
    exact .settling hc
  | settleRead n =>
    simp only [step] at h
    split at h
    · next hw =>
      split at h
      · exact Option.some.inj h ▸ .settled hw
      · exact Option.some.inj h ▸ .settled hw
    · cases h
  | settleWrite n =>
    simp only [step] at h
    cases hw : s.settles n with
    | none => simp [hw] at h
    | some w =>
      simp only [hw] at h
      obtain ⟨time, htime, rfl⟩ := Option.map_eq_some_iff.mp h
      simp only [stepSettleWrite]
      split_ifs with hr
      · obtain ⟨r, hget, hg, hU⟩ := conditional_true hr
        exact .chosen hw htime hget hg (sets_of_get hget rfl hU)
      · exact .settled hw

end Steps

/-! The times of the fires and the rows a tick still has to look at. -/

def Fired (log : List Event) (f : Fire) : Prop := ∃ row, .guarded f row ∈ log

theorem fired_snoc {log : List Event} {e : Event} {f : Fire} :
    Fired (log ++ [e]) f ↔ Fired log f ∨ ∃ row, e = .guarded f row := by
  simp only [Fired, List.mem_append, List.mem_singleton, eq_comm, exists_or]

/-- How a row may change: its schedule clock falls behind neither itself nor `bound`, and its
definition changes with its version only. -/
structure Later (bound : ℤ) (r r' : AutomationRecord) : Prop where
  since : r.since ≤ r'.since ∨ bound ≤ r'.since
  version : r.version < r'.version ∨ r.version = r'.version ∧ r.definition = r'.definition

theorem Later.refl (bound : ℤ) (r : AutomationRecord) : Later bound r r :=
  ⟨Or.inl le_rfl, Or.inr ⟨rfl, rfl⟩⟩

theorem Later.edited (bound : ℤ) (r : AutomationRecord) (d : AutomationDef) :
    Later bound r (r.edited d) :=
  ⟨Or.inl le_rfl, Or.inl (Nat.lt_succ_self _)⟩

theorem Later.switched {bound now : ℤ} (h : bound ≤ now) (r : AutomationRecord) (enabled : Bool) :
    Later bound r (r.switched enabled now) := by
  refine ⟨?_, Or.inr ⟨rfl, rfl⟩⟩
  cases enabled with
  | false => exact Or.inl le_rfl
  | true => exact Or.inr h

theorem Later.scheduled (bound : ℤ) (r : AutomationRecord) : Later bound r (r.scheduled bound) :=
  ⟨Or.inr le_rfl, Or.inr ⟨rfl, rfl⟩⟩

theorem Later.withNext (bound : ℤ) (r : AutomationRecord) (next : Option (ℤ × ℕ)) :
    Later bound r (r.withNext next) :=
  ⟨Or.inl le_rfl, Or.inr ⟨rfl, rfl⟩⟩

/-- Every row of the second table is a later state of the first's row. -/
def AllLater (bound : ℤ) (T U : Rows) : Prop :=
  ∀ k r', U.get k = some r' → ∃ r, T.get k = some r ∧ Later bound r r'

theorem AllLater.refl (bound : ℤ) (T : Rows) : AllLater bound T T :=
  fun _ r' h => ⟨r', h, Later.refl bound r'⟩

theorem Sets.allLater {bound : ℤ} {T U : Rows} {id : String} {r r' : AutomationRecord}
    (h : Sets T U r') (hr : T.get id = some r) (hid : r'.id = r.id) (hlater : Later bound r r') :
    AllLater bound T U := by
  intro k x hx
  rw [h k] at hx
  split_ifs at hx with hk
  · obtain rfl := Option.some.inj hx
    rw [hk, hid, get_id hr]
    exact ⟨r, hr, hlater⟩
  · exact ⟨x, hx, Later.refl bound x⟩

structure Timely (s : State) : Prop where
  tick : ∀ t, s.tick.now? = some t → t ≤ s.clock ∧ ∀ f, Fired s.log f → f.now ≤ t
  clock : ∀ f, Fired s.log f → f.now ≤ s.clock
  fires : ∀ f, Fired s.log f → f.number < s.fires
  since : ∀ f, Fired s.log f → ∀ r, s.table.get f.listed.id = some r → f.now ≤ r.since
  nodup : (s.tick.rest.map (·.id)).Nodup
  listed : ∀ a ∈ s.tick.rest, ∀ f, Fired s.log f → f.listed.id = a.id → f.now ≤ a.since
  version : ∀ a ∈ s.tick.rest, ∀ r, s.table.get a.id = some r →
    a.version < r.version ∨ a.version = r.version ∧ a.definition = r.definition

theorem Timely.frame {s s' : State} {bound : ℤ} (h : Timely s)
    (hlog : ∀ f, Fired s'.log f → Fired s.log f) (hfires : s'.fires = s.fires)
    (hclock : s.clock ≤ s'.clock) (hnow : ∀ t, s'.tick.now? = some t → s.tick.now? = some t)
    (hrest : s'.tick.rest.Sublist s.tick.rest) (hbound : ∀ f, Fired s.log f → f.now ≤ bound)
    (htable : AllLater bound s.table s'.table) : Timely s' := by
  constructor
  · intro t ht
    obtain ⟨hle, hall⟩ := h.tick t (hnow t ht)
    exact ⟨hle.trans hclock, fun f hf => hall f (hlog f hf)⟩
  · exact fun f hf => (h.clock f (hlog f hf)).trans hclock
  · exact fun f hf => hfires ▸ h.fires f (hlog f hf)
  · intro f hf r' hr'
    obtain ⟨r, hr, hlater⟩ := htable _ r' hr'
    rcases hlater.since with hle | hle
    · exact (h.since f (hlog f hf) r hr).trans hle
    · exact (hbound f (hlog f hf)).trans hle
  · exact h.nodup.sublist (hrest.map _)
  · exact fun a ha f hf hid => h.listed a (hrest.subset ha) f (hlog f hf) hid
  · intro a ha r' hr'
    obtain ⟨r, hr, hlater⟩ := htable _ r' hr'
    have := h.version a (hrest.subset ha) r hr
    have := hlater.version
    grind

theorem list_perm (T : Rows) : (list T).Perm T.rows := List.perm_insertionSort _ _

theorem get_of_mem_list {T : Rows} {a : AutomationRecord} (h : a ∈ list T) :
    T.get a.id = some a :=
  Table.get_eq_some.mpr ⟨(list_perm T).mem_iff.mp h, rfl⟩

theorem Timely.list {s : State} {t : ℤ} (h : Timely s) (htick : s.tick = .listing t) :
    Timely { s with tick := .rows t (Automations.list s.table) } := by
  have ht := h.tick t (by rw [htick]; rfl)
  refine ⟨?_, h.clock, h.fires, h.since, ?_, ?_, ?_⟩
  · intro t' ht'
    obtain rfl : t = t' := Option.some.inj ht'
    exact ht
  · exact ((list_perm s.table).map _).nodup_iff.mpr s.table.nodup
  · intro a ha f hf hid
    exact h.since f hf a (hid ▸ get_of_mem_list ha)
  · intro a ha r hr
    obtain rfl : a = r := Option.some.inj ((get_of_mem_list ha).symm.trans hr)
    exact Or.inr ⟨rfl, rfl⟩

theorem afterGuard_now (f : Fire) (rest : List AutomationRecord) :
    (afterGuard f rest).now? = some f.now := by
  unfold afterGuard
  split_ifs
  · rfl
  · rfl

theorem afterGuard_rest (f : Fire) (rest : List AutomationRecord) :
    (afterGuard f rest).rest = rest := by
  unfold afterGuard
  split_ifs
  · rfl
  · rfl

theorem afterGuard_fire (f : Fire) (rest : List AutomationRecord) :
    (afterGuard f rest).fire? = some f := by
  unfold afterGuard
  split_ifs
  · rfl
  · rfl

theorem Timely.fire {s : State} {t : ℤ} {a row : AutomationRecord} {rest : List AutomationRecord}
    {due : Due} {U : Rows} (h : Timely s) (htick : s.tick = .rows t (a :: rest))
    (hrow : s.table.get a.id = some row) (hsets : Sets s.table U (row.scheduled t)) :
    Timely { s with table := U, fires := s.fires + 1,
                    tick := afterGuard ⟨s.fires, t, a, due⟩ rest,
                    log := s.log ++ [.guarded ⟨s.fires, t, a, due⟩ row] } := by
  obtain ⟨hclock, hpast⟩ := h.tick t (by rw [htick]; rfl)
  have hnodup := h.nodup
  have hlisted := h.listed
  have hversion := h.version
  simp only [htick, TickPc.rest, List.map_cons, List.nodup_cons, List.mem_map] at hnodup
  simp only [htick, TickPc.rest, List.mem_cons] at hlisted hversion
  have hlater : AllLater t s.table U := hsets.allLater hrow rfl (Later.scheduled t row)
  constructor
  · intro t' ht'
    rw [afterGuard_now] at ht'
    obtain rfl : t = t' := Option.some.inj ht'
    refine ⟨hclock, ?_⟩
    intro f hf
    rcases fired_snoc.mp hf with hf | ⟨row', he⟩
    · exact hpast f hf
    · cases he
      exact le_rfl
  · intro f hf
    rcases fired_snoc.mp hf with hf | ⟨row', he⟩
    · exact h.clock f hf
    · cases he
      exact hclock
  · intro f hf
    rcases fired_snoc.mp hf with hf | ⟨row', he⟩
    · exact (h.fires f hf).trans (Nat.lt_succ_self _)
    · cases he
      exact Nat.lt_succ_self _
  · intro f hf r' hr'
    rcases fired_snoc.mp hf with hf | ⟨row', he⟩
    · obtain ⟨r, hr, hl⟩ := hlater _ r' hr'
      rcases hl.since with hle | hle
      · exact (h.since f hf r hr).trans hle
      · exact (hpast f hf).trans hle
    · cases he
      rw [hsets] at hr'
      have hid : (row.scheduled t).id = a.id :=
        (AutomationRecord.scheduled_id t row).trans (get_id hrow)
      rw [if_pos hid.symm] at hr'
      obtain rfl := Option.some.inj hr'
      exact le_rfl
  · rw [afterGuard_rest]
    exact hnodup.2
  · intro b hb f hf hid
    rw [afterGuard_rest] at hb
    rcases fired_snoc.mp hf with hf | ⟨row', he⟩
    · exact hlisted b (Or.inr hb) f hf hid
    · cases he
      exact absurd ⟨b, hb, hid.symm⟩ hnodup.1
  · intro b hb r' hr'
    rw [afterGuard_rest] at hb
    obtain ⟨r, hr, hl⟩ := hlater _ r' hr'
    have := hversion b (Or.inr hb) r hr
    have := hl.version
    grind

theorem timely_step {Spec : Type} {crons : Crons Spec} {s s' : State} {a : Action} (h : Timely s)
    (hs : Step crons s a s') : Timely s' := by
  have hsnoc : ∀ {e : Event}, (∀ f row, e ≠ .guarded f row) →
      ∀ f, Fired (s.log ++ [e]) f → Fired s.log f := by
    intro e he f hf
    rcases fired_snoc.mp hf with hf | ⟨row, rfl⟩
    · exact hf
    · exact absurd rfl (he f row)
  cases hs with
  | tick hidle hclock =>
    refine ⟨?_, fun f hf => (h.clock f hf).trans hclock, h.fires, h.since, by simp [TickPc.rest],
      by simp [TickPc.rest], by simp [TickPc.rest]⟩
    intro t ht
    obtain rfl := Option.some.inj ht
    exact ⟨le_rfl, fun f hf => (h.clock f hf).trans hclock⟩
  | listed htick => exact h.list htick
  | ended htick =>
    exact h.frame (fun _ hf => hf) rfl le_rfl (by simp [TickPc.now?]) (by simp [TickPc.rest])
      h.clock (AllLater.refl _ _)
  | passed htick =>
    exact h.frame (fun _ hf => hf) rfl le_rfl (by simp [TickPc.now?, htick])
      (by simp [TickPc.rest, htick]) h.clock (AllLater.refl _ _)
  | guarded htick hdue hrow hguard hsets => exact h.fire htick hrow hsets
  | spoiled htick hguard =>
    exact h.frame (fun _ hf => hf) rfl le_rfl (by simp [TickPc.now?, htick])
      (by simp [TickPc.rest, htick]) h.clock (AllLater.refl _ _)
  | cleared htick hrow hguard hsets =>
    exact h.frame (hsnoc (by simp)) rfl le_rfl (by simp [TickPc.now?, htick])
      (by simp [TickPc.rest, htick]) h.clock
      (hsets.allLater hrow rfl (Later.withNext _ _ _))
  | started htick =>
    exact h.frame (hsnoc (by simp)) rfl le_rfl (by simp [TickPc.now?, htick])
      (by simp [TickPc.rest, htick]) h.clock (AllLater.refl _ _)
  | threw => exact h
  | edited hrow hsets =>
    exact h.frame (hsnoc (by simp)) rfl le_rfl (fun _ ht => ht) (List.Sublist.refl _) h.clock
      (hsets.allLater hrow rfl (Later.edited _ _ _))
  | @switched id enabled now U hclock hU =>
    refine h.frame (hsnoc (by simp)) rfl hclock (fun _ ht => ht) (List.Sublist.refl _) h.clock ?_
    intro k r' hr'
    rw [hU] at hr'
    split_ifs at hr' with hk
    · obtain ⟨r, hr, rfl⟩ := Option.map_eq_some_iff.mp hr'
      exact ⟨r, hr, Later.switched hclock r enabled⟩
    · exact ⟨r', hr', Later.refl _ _⟩
  | settling hclock =>
    exact h.frame (fun _ hf => hf) rfl hclock (fun _ ht => ht) (List.Sublist.refl _) h.clock
      (AllLater.refl _ _)
  | settled hw =>
    exact h.frame (fun _ hf => hf) rfl le_rfl (fun _ ht => ht) (List.Sublist.refl _) h.clock
      (AllLater.refl _ _)
  | chosen hw happlied hrow hguard hsets =>
    exact h.frame (hsnoc (by simp)) rfl le_rfl (fun _ ht => ht) (List.Sublist.refl _) h.clock
      (hsets.allLater hrow rfl (Later.withNext _ _ _))

theorem timely_initial {s : State} (h : Initial s) : Timely s := by
  have hnot : ∀ f, ¬ Fired s.log f := by
    rintro f ⟨row, hrow⟩
    rw [h.log] at hrow
    obtain ⟨r, -, hr⟩ := List.mem_filterMap.mp hrow
    simp only [AutomationRecord.choice, Option.bind_eq_some_iff, Option.map_eq_some_iff] at hr
    obtain ⟨t, -, n, -, hn⟩ := hr
    cases hn
  constructor
  · simp [h.tick, TickPc.now?]
  · exact fun f hf => absurd hf (hnot f)
  · exact fun f hf => absurd hf (hnot f)
  · exact fun f hf => absurd hf (hnot f)
  · simp [h.tick, TickPc.rest]
  · simp [h.tick, TickPc.rest]
  · simp [h.tick, TickPc.rest]

/-! The next fires that runs chose. -/

theorem ChosenIn.snoc {log : List Event} {id : String} {run : ℕ} {time : ℤ} {e : Event}
    (h : ChosenIn log id run time) (he : e.disturbs id = false) :
    ChosenIn (log ++ [e]) id run time := by
  obtain ⟨earlier, later, rfl, hlater⟩ := h
  refine ⟨earlier, later ++ [e], by simp, ?_⟩
  intro x hx
  rcases List.mem_append.mp hx with hx | hx
  · exact hlater x hx
  · rwa [List.mem_singleton.mp hx]

/-- The next fire of a row stands in the log with its run, undisturbed and not consumed. -/
def Held (log : List Event) (r : AutomationRecord) : Prop :=
  ∀ time, r.nextRunAt = some time → ∃ run, r.nextRunBy = some run ∧
    ChosenIn log r.id run time ∧ ∀ f, .consumed f run ∈ log → f.listed.id ≠ r.id

theorem Held.of_none {log : List Event} {r : AutomationRecord} (h : r.nextRunAt = none) :
    Held log r := by
  intro time htime
  rw [h] at htime
  cases htime

theorem Held.snoc {log : List Event} {r : AutomationRecord} {e : Event} (h : Held log r)
    (hdisturb : e.disturbs r.id = false)
    (hconsume : ∀ f run, e = .consumed f run → f.listed.id ≠ r.id) : Held (log ++ [e]) r := by
  intro time htime
  obtain ⟨run, hrun, hchosen, hnot⟩ := h time htime
  refine ⟨run, hrun, hchosen.snoc hdisturb, ?_⟩
  intro f hf
  rcases List.mem_append.mp hf with hf | hf
  · exact hnot f hf
  · exact hconsume f run (List.mem_singleton.mp hf).symm

structure Choices (s : State) : Prop where
  held : ∀ id r, s.table.get id = some r → Held s.log r
  settling : ∀ n w, s.settles n = some w → n < s.runs ∧ ∀ id time, .chosen id n time ∉ s.log
  runs : ∀ id n time, .chosen id n time ∈ s.log → n < s.runs
  consumed : ∀ f run, .consumed f run ∈ s.log → ∃ time, .chosen f.listed.id run time ∈ s.log

/-- An event that neither chooses nor consumes keeps what the log says of the runs. -/
theorem Choices.snoc {s : State} {e : Event} {U : Rows} (h : Choices s)
    (hheld : ∀ id r, U.get id = some r → Held (s.log ++ [e]) r)
    (hchosen : ∀ id n time, e ≠ .chosen id n time)
    (hconsumed : ∀ f run, e = .consumed f run → ∃ time, .chosen f.listed.id run time ∈ s.log)
    (clock : ℤ) (tick : TickPc) (fires : ℕ) :
    Choices ⟨U, clock, tick, s.settles, s.runs, fires, s.log ++ [e]⟩ := by
  have hback : ∀ id n time, .chosen id n time ∈ s.log ++ [e] → .chosen id n time ∈ s.log := by
    intro id n time hmem
    rcases List.mem_append.mp hmem with hmem | hmem
    · exact hmem
    · exact absurd (List.mem_singleton.mp hmem).symm (hchosen id n time)
  refine ⟨hheld, ?_, fun id n time hmem => h.runs id n time (hback id n time hmem), ?_⟩
  · intro n w hw
    obtain ⟨hlt, hnot⟩ := h.settling n w hw
    exact ⟨hlt, fun id time hmem => hnot id time (hback id n time hmem)⟩
  · intro f run hmem
    rcases List.mem_append.mp hmem with hmem | hmem
    · obtain ⟨time, htime⟩ := h.consumed f run hmem
      exact ⟨time, List.mem_append_left _ htime⟩
    · obtain ⟨time, htime⟩ := hconsumed f run (List.mem_singleton.mp hmem).symm
      exact ⟨time, List.mem_append_left _ htime⟩

/-- The held next fires after one row changed. -/
theorem held_sets {s : State} {U : Rows} {e : Event} {x : AutomationRecord} (h : Choices s)
    (hsets : Sets s.table U x) (hx : Held (s.log ++ [e]) x)
    (hdisturb : ∀ id, id ≠ x.id → e.disturbs id = false)
    (hconsume : ∀ f run, e = .consumed f run → f.listed.id = x.id) (id : String)
    (r : AutomationRecord) (hr : U.get id = some r) : Held (s.log ++ [e]) r := by
  rw [hsets id] at hr
  split_ifs at hr with hk
  · obtain rfl := Option.some.inj hr
    exact hx
  · have hid := get_id hr
    refine (h.held id r hr).snoc (hdisturb r.id (hid ▸ hk)) ?_
    intro f run he hf
    exact hk (hid.symm.trans (hf.symm.trans (hconsume f run he)))

theorem Choices.chosen {s : State} {n : ℕ} {w : Settle} {time : ℤ} {r : AutomationRecord}
    {U : Rows} (h : Choices s) (hw : s.settles n = some w) (hrow : s.table.get w.id = some r)
    (hsets : Sets s.table U (r.withNext (some (time, n)))) :
    Choices { s with table := U, settles := Function.update s.settles n none,
                     log := s.log ++ [.chosen w.id n time] } := by
  obtain ⟨hlt, hnot⟩ := h.settling n w hw
  have hid : r.id = w.id := get_id hrow
  have hnew : Held (s.log ++ [.chosen w.id n time]) (r.withNext (some (time, n))) := by
    intro t ht
    obtain rfl : time = t := Option.some.inj ht
    refine ⟨n, rfl, ⟨s.log, [], by rw [AutomationRecord.withNext_id, hid], by simp⟩, ?_⟩
    intro f hf
    rcases List.mem_append.mp hf with hf | hf
    · obtain ⟨t, ht⟩ := h.consumed f n hf
      exact absurd ht (hnot _ t)
    · cases List.mem_singleton.mp hf
  refine ⟨held_sets h hsets hnew (fun _ _ => rfl) (by simp), ?_, ?_, ?_⟩
  · intro m w' hw'
    simp only [Function.update_apply] at hw'
    split_ifs at hw' with hm
    obtain ⟨hlt', hnot'⟩ := h.settling m w' hw'
    refine ⟨hlt', ?_⟩
    intro id t hmem
    rcases List.mem_append.mp hmem with hmem | hmem
    · exact hnot' id t hmem
    · cases List.mem_singleton.mp hmem
      exact hm rfl
  · intro id m t hmem
    rcases List.mem_append.mp hmem with hmem | hmem
    · exact h.runs id m t hmem
    · cases List.mem_singleton.mp hmem
      exact hlt
  · intro f run hmem
    rcases List.mem_append.mp hmem with hmem | hmem
    · obtain ⟨t, ht⟩ := h.consumed f run hmem
      exact ⟨t, List.mem_append_left _ ht⟩
    · cases List.mem_singleton.mp hmem

theorem Choices.consume {s : State} {f : Fire} {rest : List AutomationRecord}
    {r : AutomationRecord} {U : Rows} {time : ℤ} (h : Choices s)
    (hrow : s.table.get f.listed.id = some r) (hnext : r.nextRunAt = some time)
    (hsets : Sets s.table U (r.withNext none)) :
    Choices { s with table := U, tick := .starting f rest,
                     log := s.log ++ [.consumed f (r.nextRunBy.getD 0)] } := by
  obtain ⟨run, hrun, ⟨earlier, later, hlog, -⟩, -⟩ := h.held _ r hrow time hnext
  have hid : r.id = f.listed.id := get_id hrow
  refine h.snoc (held_sets h hsets (Held.of_none rfl) (fun _ _ => rfl) ?_) (by simp) ?_ _ _ _
  · intro g run' he
    cases he
    exact hid.symm
  · intro g run' he
    cases he
    refine ⟨time, ?_⟩
    rw [hrun, Option.getD_some, hlog, ← hid]
    simp

theorem Choices.settle {s : State} {n : ℕ} {o : Option Settle} (h : Choices s)
    (ho : ∀ w, o = some w → n < s.runs ∧ ∀ id time, .chosen id n time ∉ s.log) :
    Choices { s with settles := Function.update s.settles n o } := by
  refine ⟨h.held, ?_, h.runs, h.consumed⟩
  intro m w hw
  simp only [Function.update_apply] at hw
  split_ifs at hw with hm
  · subst hm
    exact ho w hw
  · exact h.settling m w hw

/-! What the log may say. -/

section Log
variable {Spec : Type} (crons : Crons Spec) (slots : Spec → Option String → Set ℤ)

/-- A fire may start: since every start of the automation so far a run-chosen time was consumed for
it, or a slot of its cron has come. -/
structure Ready (log : List Event) (f : Fire) : Prop where
  separated : ∀ before g o between, log = before ++ .started g o :: between →
    g.listed.id = f.listed.id →
      (∃ run, .consumed f run ∈ between) ∨ SlotAfter crons slots g.now f
  consumed : f.due.kind = .rescheduled → ∃ run, .consumed f run ∈ log

def Allowed (before : List Event) : Event → Prop
  | .guarded f row => FireDue crons slots f row ∧ ¬ Fired before f
  | .consumed f run => ChosenIn before f.listed.id run f.due.slot ∧
      ∀ g, .consumed g run ∈ before → g.listed.id ≠ f.listed.id
  | .started f _ => Fired before f ∧ Ready crons slots before f
  | _ => True

structure Logged (s : State) : Prop where
  log : Justified (Allowed crons slots) s.log
  fire : ∀ f, s.tick.fire? = some f → Fired s.log f
  clearing : ∀ f rest, s.tick = .clearing f rest → f.listed.nextRunAt = some f.due.slot
  starting : ∀ f rest, s.tick = .starting f rest → Ready crons slots s.log f

variable {crons slots}

theorem Ready.snoc {log : List Event} {f : Fire} {e : Event} (h : Ready crons slots log f)
    (he : ∀ g o, e ≠ .started g o) : Ready crons slots (log ++ [e]) f := by
  constructor
  · intro before g o between heq hid
    rcases snoc_eq_append_cons heq with ⟨-, -, rfl⟩ | ⟨between', rfl, hlog⟩
    · exact absurd rfl (he g o)
    · rcases h.separated before g o between' hlog hid with ⟨run, hrun⟩ | hslot
      · exact Or.inl ⟨run, List.mem_append_left _ hrun⟩
      · exact Or.inr hslot
  · intro hkind
    obtain ⟨run, hrun⟩ := h.consumed hkind
    exact ⟨run, List.mem_append_left _ hrun⟩

theorem Fired.snoc {log : List Event} {f : Fire} (h : Fired log f) (e : Event) :
    Fired (log ++ [e]) f := fired_snoc.mpr (Or.inl h)

/-- A step that writes an event of its own, or none, and leaves the tick where it is. -/
theorem Logged.snoc {s s' : State} {e : Event} (h : Logged crons slots s)
    (hlog : s'.log = s.log ++ [e]) (htick : s'.tick = s.tick)
    (hallowed : Allowed crons slots s.log e) (he : ∀ g o, e ≠ .started g o) : Logged crons slots s' := by
  constructor
  · rw [hlog]
    exact h.log.snoc hallowed
  · intro f hf
    rw [hlog]
    exact (h.fire f (htick ▸ hf)).snoc e
  · exact fun f rest hf => h.clearing f rest (htick ▸ hf)
  · intro f rest hf
    rw [hlog]
    exact (h.starting f rest (htick ▸ hf)).snoc he

theorem Logged.move {s s' : State} (h : Logged crons slots s) (hlog : s'.log = s.log)
    (htick : s'.tick.fire? = none) : Logged crons slots s' := by
  refine ⟨hlog ▸ h.log, ?_, ?_, ?_⟩
  · intro f hf
    rw [htick] at hf
    cases hf
  · intro f rest hf
    rw [hf] at htick
    cases htick
  · intro f rest hf
    rw [hf] at htick
    cases htick

theorem Logged.same {s s' : State} (h : Logged crons slots s) (hlog : s'.log = s.log)
    (htick : s'.tick = s.tick) : Logged crons slots s' := by
  refine ⟨hlog ▸ h.log, ?_, ?_, ?_⟩
  · exact fun f hf => hlog ▸ h.fire f (htick ▸ hf)
  · exact fun f rest hf => h.clearing f rest (htick ▸ hf)
  · exact fun f rest hf => hlog ▸ h.starting f rest (htick ▸ hf)

theorem Logged.started_fired {s : State} (h : Logged crons slots s) {f : Fire} {o : StartOutcome}
    (hmem : .started f o ∈ s.log) : Fired s.log f := by
  obtain ⟨before, after, hlog⟩ := List.append_of_mem hmem
  obtain ⟨⟨row, hrow⟩, -⟩ := h.log before (.started f o) after hlog
  exact ⟨row, hlog ▸ List.mem_append_left _ hrow⟩

theorem guarded_iff {g : WriteGuard} {r : AutomationRecord} {t : Option ℤ}
    (hg : g.nextRunAt = some t) :
    guarded g r = true ↔ r.version = g.version ∧ r.enabled = true ∧ r.nextRunAt = t := by
  simp [guarded, hg, and_assoc]

/-- The first conditional write met the row the tick had listed, as far as it decides what is
due. -/
theorem fireDue_of_guard (hlaw : crons.Lawful slots) {s : State} (ht : Timely s) {n : ℕ} {t : ℤ}
    {a row : AutomationRecord} {rest : List AutomationRecord} {due : Due}
    (htick : s.tick = .rows t (a :: rest)) (hdue : dueSchedule crons a t = some due)
    (hrow : s.table.get a.id = some row)
    (hguard : guarded ⟨a.version, some a.nextRunAt⟩ row = true) :
    FireDue crons slots ⟨n, t, a, due⟩ row := by
  obtain ⟨hversion, henabled, hnext⟩ := (guarded_iff rfl).mp hguard
  have hdef := ht.version a (by simp [htick, TickPc.rest]) row hrow
  obtain ⟨-, hcases⟩ := dueSchedule_some hlaw hdue
  refine ⟨get_id hrow, henabled, ?_, ?_⟩
  · rcases hdef with hlt | ⟨-, hdef⟩
    · exact absurd hversion (Nat.ne_of_gt hlt)
    · exact hdef.symm
  · rw [hnext]
    exact hcases

theorem Logged.guarded (hlaw : crons.Lawful slots) {s : State} (h : Logged crons slots s)
    (ht : Timely s) {t : ℤ} {a row : AutomationRecord} {rest : List AutomationRecord} {due : Due}
    {U : Rows} (htick : s.tick = .rows t (a :: rest)) (hdue : dueSchedule crons a t = some due)
    (hrow : s.table.get a.id = some row)
    (hguard : guarded ⟨a.version, some a.nextRunAt⟩ row = true) :
    Logged crons slots
      { s with table := U, fires := s.fires + 1,
               tick := afterGuard ⟨s.fires, t, a, due⟩ rest,
               log := s.log ++ [.guarded ⟨s.fires, t, a, due⟩ row] } := by
  have hfire := @fireDue_of_guard _ _ _ hlaw _ ht s.fires _ _ _ _ _ htick hdue hrow hguard
  obtain ⟨-, hcases⟩ := dueSchedule_some hlaw hdue
  have hfresh : ¬ Fired s.log ⟨s.fires, t, a, due⟩ := fun hf => absurd (ht.fires _ hf) (lt_irrefl _)
  refine ⟨h.log.snoc ⟨hfire, hfresh⟩, ?_, ?_, ?_⟩
  · intro f hf
    rw [afterGuard_fire] at hf
    obtain rfl := Option.some.inj hf
    exact fired_snoc.mpr (Or.inr ⟨row, rfl⟩)
  · intro f rest' hf
    simp only [afterGuard] at hf
    split_ifs at hf with hkind
    obtain ⟨rfl, -⟩ := TickPc.clearing.inj hf
    rcases hcases with ⟨-, hnext, -⟩ | ⟨hne, -⟩
    · exact hnext
    · exact absurd hkind hne
  · intro f rest' hf
    simp only [afterGuard] at hf
    split_ifs at hf with hkind
    obtain ⟨rfl, -⟩ := TickPc.starting.inj hf
    refine ⟨?_, fun hk => absurd hk hkind⟩
    intro before g o between heq hid
    rcases snoc_eq_append_cons heq with ⟨-, -, he⟩ | ⟨between', -, hlog⟩
    · cases he
    · refine Or.inr ?_
      have hstarted : Fired s.log g :=
        h.started_fired (hlog ▸ List.mem_append_right _ List.mem_cons_self)
      have hpast : g.now ≤ a.since :=
        ht.listed a (by simp [htick, TickPc.rest]) g hstarted hid
      rcases hcases with ⟨hk, -, -⟩ | ⟨-, -, ⟨sch, hsch, spec, hp, hcron, -, hslot, hlt, hle⟩, -⟩
      · exact absurd hk hkind
      · exact ⟨sch, hsch, spec, hp, hcron, due.slot, hslot, lt_of_le_of_lt hpast hlt, hle⟩

theorem Logged.cleared {s : State} (h : Logged crons slots s) (hc : Choices s) {f : Fire}
    {rest : List AutomationRecord} {r : AutomationRecord} {U : Rows}
    (htick : s.tick = .clearing f rest) (hrow : s.table.get f.listed.id = some r)
    (hguard : Automations.guarded f.guard r = true) :
    Logged crons slots
      { s with table := U, tick := .starting f rest,
               log := s.log ++ [.consumed f (r.nextRunBy.getD 0)] } := by
  obtain ⟨-, -, hnext⟩ := (guarded_iff rfl).mp hguard
  rw [h.clearing f rest htick] at hnext
  obtain ⟨run, hrun, hchosen, hnot⟩ := hc.held _ r hrow _ hnext
  have hid : r.id = f.listed.id := get_id hrow
  rw [hrun, Option.getD_some]
  refine ⟨h.log.snoc ⟨hid ▸ hchosen, fun g hg => hid ▸ hnot g hg⟩, ?_, ?_, ?_⟩
  · intro g hg
    obtain rfl := Option.some.inj hg
    exact (h.fire f (by rw [htick]; rfl)).snoc _
  · intro g rest' hg
    cases hg
  · intro g rest' hg
    obtain ⟨rfl, -⟩ := TickPc.starting.inj hg
    refine ⟨?_, fun _ => ⟨run, by simp⟩⟩
    intro before x o between heq _
    rcases snoc_eq_append_cons heq with ⟨-, -, he⟩ | ⟨between', rfl, -⟩
    · cases he
    · exact Or.inl ⟨run, by simp⟩

end Log

/-! What every step keeps. -/

section Sound
variable {Spec : Type} {crons : Crons Spec} {slots : Spec → Option String → Set ℤ}

structure Sound (crons : Crons Spec) (slots : Spec → Option String → Set ℤ) (s : State) : Prop where
  timely : Timely s
  choices : Choices s
  logged : Logged crons slots s

theorem choices_step {s s' : State} {a : Action} (h : Sound crons slots s)
    (hs : Step crons s a s') : Choices s' := by
  have hc := h.choices
  cases hs with
  | tick hidle hclock => exact ⟨hc.held, hc.settling, hc.runs, hc.consumed⟩
  | listed htick => exact ⟨hc.held, hc.settling, hc.runs, hc.consumed⟩
  | ended htick => exact ⟨hc.held, hc.settling, hc.runs, hc.consumed⟩
  | passed htick => exact ⟨hc.held, hc.settling, hc.runs, hc.consumed⟩
  | @guarded now t st a row rest due U htick hdue hrow hguard hsets =>
    have hheld : Held (s.log ++ [.guarded ⟨s.fires, t, a, due⟩ row]) (row.scheduled t) :=
      (hc.held _ row hrow).snoc rfl (by simp)
    exact hc.snoc (held_sets hc hsets hheld (fun _ _ => rfl) (by simp)) (by simp) (by simp) _ _ _
  | spoiled htick hguard => exact ⟨hc.held, hc.settling, hc.runs, hc.consumed⟩
  | cleared htick hrow hguard hsets =>
    obtain ⟨-, -, hnext⟩ := (guarded_iff rfl).mp hguard
    rw [h.logged.clearing _ _ htick] at hnext
    exact hc.consume hrow hnext hsets
  | started htick =>
    refine hc.snoc ?_ (by simp) (by simp) _ _ _
    exact fun id r hr => (hc.held id r hr).snoc rfl (by simp)
  | threw => exact hc
  | @edited id d v r U hrow hsets =>
    refine hc.snoc (held_sets hc hsets (Held.of_none rfl) ?_ (by simp)) (by simp) (by simp) _ _ _
    intro i hi
    rw [AutomationRecord.edited_id, get_id hrow] at hi
    exact beq_eq_false_iff_ne.mpr (Ne.symm hi)
  | @switched id enabled now U hclock hU =>
    refine hc.snoc ?_ (by simp) (by simp) _ _ _
    intro i r' hr'
    have hi := get_id hr'
    rw [hU] at hr'
    split_ifs at hr' with hk
    · obtain ⟨r, -, rfl⟩ := Option.map_eq_some_iff.mp hr'
      exact Held.of_none rfl
    · refine (hc.held i r' hr').snoc ?_ (by simp)
      exact beq_eq_false_iff_ne.mpr fun he => hk (hi.symm.trans he.symm)
  | @settling id version succeeded requestedAt now w hclock =>
    have hgrown : Choices { s with clock := now, runs := s.runs + 1 } :=
      ⟨hc.held, fun n w hw => ⟨(hc.settling n w hw).1.trans (Nat.lt_succ_self _),
        (hc.settling n w hw).2⟩, fun i n t hmem => (hc.runs i n t hmem).trans (Nat.lt_succ_self _),
        hc.consumed⟩
    refine hgrown.settle ?_
    intro w' _
    exact ⟨Nat.lt_succ_self _, fun i t hmem => absurd (hc.runs i _ t hmem) (lt_irrefl _)⟩
  | settled hw => exact hc.settle fun _ _ => hc.settling _ _ hw
  | chosen hw happlied hrow hguard hsets => exact hc.chosen hw hrow hsets

theorem logged_step (hlaw : crons.Lawful slots) {s s' : State} {a : Action}
    (h : Sound crons slots s) (hs : Step crons s a s') : Logged crons slots s' := by
  have hl := h.logged
  cases hs with
  | tick hidle hclock => exact hl.move rfl rfl
  | listed htick => exact hl.move rfl rfl
  | ended htick => exact hl.move rfl rfl
  | passed htick => exact hl.move rfl rfl
  | guarded htick hdue hrow hguard hsets =>
    exact hl.guarded hlaw h.timely htick hdue hrow hguard
  | spoiled htick hguard => exact hl.move rfl rfl
  | cleared htick hrow hguard hsets => exact hl.cleared h.choices htick hrow hguard
  | @started now st f rest o htick =>
    have hallowed : Allowed crons slots s.log (.started f o) :=
      ⟨hl.fire f (by rw [htick]; rfl), hl.starting f rest htick⟩
    refine ⟨hl.log.snoc hallowed, ?_, ?_, ?_⟩
    · intro g hg
      cases hg
    · intro g rest' hg
      cases hg
    · intro g rest' hg
      cases hg
  | threw => exact hl
  | edited hrow hsets => exact hl.snoc rfl rfl trivial (by simp)
  | switched hclock hU => exact hl.snoc rfl rfl trivial (by simp)
  | settling hclock => exact hl.same rfl rfl
  | settled hw => exact hl.same rfl rfl
  | chosen hw happlied hrow hguard hsets => exact hl.snoc rfl rfl trivial (by simp)

theorem sound_step (hlaw : crons.Lawful slots) {s s' : State} {a : Action}
    (h : Sound crons slots s) (hs : Step crons s a s') : Sound crons slots s' :=
  ⟨timely_step h.timely hs, choices_step h hs, logged_step hlaw h hs⟩

theorem choice_mem {s : State} (h : Initial s) {e : Event} (he : e ∈ s.log) :
    ∃ r n t, s.table.get r.id = some r ∧ r.nextRunAt = some t ∧ r.nextRunBy = some n ∧
      e = .chosen r.id n t := by
  rw [h.log] at he
  obtain ⟨r, hr, hchoice⟩ := List.mem_filterMap.mp he
  simp only [AutomationRecord.choice, Option.bind_eq_some_iff, Option.map_eq_some_iff] at hchoice
  obtain ⟨t, ht, n, hn, rfl⟩ := hchoice
  exact ⟨r, n, t, Table.get_eq_some.mpr ⟨hr, rfl⟩, ht, hn, rfl⟩

theorem choices_initial {s : State} (h : Initial s) : Choices s := by
  constructor
  · intro id r hr time htime
    have hmem := (Table.get_eq_some.mp hr).1
    have hsome := h.chosenBy r hmem
    rw [htime] at hsome
    obtain ⟨n, hn⟩ := Option.isSome_iff_exists.mp hsome.symm
    have hlog : .chosen r.id n time ∈ s.log := by
      rw [h.log]
      exact List.mem_filterMap.mpr ⟨r, hmem, by simp [AutomationRecord.choice, htime, hn]⟩
    obtain ⟨earlier, later, hsplit⟩ := List.append_of_mem hlog
    refine ⟨n, hn, ⟨earlier, later, hsplit, ?_⟩, ?_⟩
    · intro e he
      obtain ⟨x, m, t, -, -, -, rfl⟩ :=
        choice_mem h (e := e) (hsplit ▸ List.mem_append_right _ (List.mem_cons_of_mem _ he))
      rfl
    · intro f hf
      obtain ⟨x, m, t, -, -, -, he⟩ := choice_mem h hf
      cases he
  · intro n w hw
    rw [h.settles] at hw
    cases hw
  · intro id n time hmem
    obtain ⟨r, m, t, hr, -, hm, he⟩ := choice_mem h hmem
    obtain ⟨rfl, rfl, rfl⟩ := Event.chosen.inj he
    exact h.runs r (Table.get_eq_some.mp hr).1 _ hm
  · intro f run hmem
    obtain ⟨r, m, t, -, -, -, he⟩ := choice_mem h hmem
    cases he

theorem sound_initial {s : State} (h : Initial s) : Sound crons slots s := by
  refine ⟨timely_initial h, choices_initial h, ?_, ?_, ?_, ?_⟩
  · intro before e after hlog
    obtain ⟨r, m, t, -, -, -, rfl⟩ := choice_mem h (e := e) (hlog ▸ by simp)
    trivial
  · intro f hf
    rw [h.tick] at hf
    cases hf
  · intro f rest hf
    rw [h.tick] at hf
    cases hf
  · intro f rest hf
    rw [h.tick] at hf
    cases hf

end Sound

/-! One start for each fire, when nothing disturbs its two writes. -/

section Count
variable {Spec : Type} {crons : Crons Spec} {slots : Spec → Option String → Set ℤ}

structure Counted (s : State) : Prop where
  once : ∀ f, Fired s.log f → s.log.countP (Event.guards f) = 1
  started : ∀ f, Fired s.log f →
    s.log.countP (Event.starts f) = if s.tick.fire? = some f then 0 else 1
  clearing : ∀ f rest, s.tick = .clearing f rest →
    ∃ r, s.table.get f.listed.id = some r ∧ guarded f.guard r = true

theorem countP_guards_eq_zero {log : List Event} {f : Fire} (h : ¬ Fired log f) :
    log.countP (Event.guards f) = 0 := by
  rw [List.countP_eq_zero]
  intro e he hg
  cases e with
  | guarded g row =>
    obtain rfl : g = f := by simpa [Event.guards] using hg
    exact h ⟨row, he⟩
  | edited id => cases hg
  | switched id enabled => cases hg
  | chosen id run time => cases hg
  | consumed g run => cases hg
  | started g o => cases hg

theorem countP_starts_eq_zero {log : List Event} {f : Fire} (h : ∀ o, .started f o ∉ log) :
    log.countP (Event.starts f) = 0 := by
  rw [List.countP_eq_zero]
  intro e he hg
  cases e with
  | started g o =>
    obtain rfl : g = f := by simpa [Event.starts] using hg
    exact h o he
  | edited id => cases hg
  | switched id enabled => cases hg
  | chosen id run time => cases hg
  | consumed g run => cases hg
  | guarded g row => cases hg

/-- A step that writes an event that is neither a guard nor a start. -/
theorem Counted.snoc {s s' : State} {e : Event} (h : Counted s) (hlog : s'.log = s.log ++ [e])
    (hguard : ∀ f row, e ≠ .guarded f row) (hstart : ∀ f o, e ≠ .started f o)
    (hfire : s'.tick.fire? = s.tick.fire?)
    (hclearing : ∀ f rest, s'.tick = .clearing f rest →
      ∃ r, s'.table.get f.listed.id = some r ∧ guarded f.guard r = true) : Counted s' := by
  have hold : ∀ f, Fired s'.log f → Fired s.log f := by
    intro f hf
    rw [hlog] at hf
    rcases fired_snoc.mp hf with hf | ⟨row, he⟩
    · exact hf
    · exact absurd he (hguard f row)
  have hzero : ∀ f, Event.guards f e = false ∧ Event.starts f e = false := by
    intro f
    cases e with
    | guarded g row => exact absurd rfl (hguard g row)
    | started g o => exact absurd rfl (hstart g o)
    | edited id => exact ⟨rfl, rfl⟩
    | switched id enabled => exact ⟨rfl, rfl⟩
    | chosen id run time => exact ⟨rfl, rfl⟩
    | consumed g run => exact ⟨rfl, rfl⟩
  refine ⟨?_, ?_, hclearing⟩
  · intro f hf
    rw [hlog, List.countP_append, h.once f (hold f hf)]
    simp [(hzero f).1]
  · intro f hf
    rw [hlog, List.countP_append, h.started f (hold f hf), hfire]
    simp [(hzero f).2]

/-- A step that writes no event and leaves no fire half done. -/
theorem Counted.move {s s' : State} (h : Counted s) (hlog : s'.log = s.log)
    (hfire : s.tick.fire? = none) (hfire' : s'.tick.fire? = none) : Counted s' := by
  refine ⟨fun f hf => ?_, fun f hf => ?_, fun f rest hf => ?_⟩
  · rw [hlog] at hf ⊢
    exact h.once f hf
  · rw [hlog] at hf ⊢
    rw [h.started f hf, hfire, hfire']
  · rw [hf] at hfire'
    cases hfire'

theorem Counted.same {s s' : State} (h : Counted s) (hlog : s'.log = s.log)
    (htick : s'.tick = s.tick) (htable : s'.table = s.table) : Counted s' := by
  refine ⟨fun f hf => ?_, fun f hf => ?_, fun f rest hf => ?_⟩
  · rw [hlog] at hf ⊢
    exact h.once f hf
  · rw [hlog] at hf ⊢
    rw [h.started f hf, htick]
  · rw [htable]
    exact h.clearing f rest (htick ▸ hf)

theorem Counted.guarded {s : State} (h : Counted s) (hsound : Sound crons slots s) {t : ℤ}
    {a row : AutomationRecord} {rest : List AutomationRecord} {due : Due} {U : Rows}
    (htick : s.tick = .rows t (a :: rest)) (hrow : s.table.get a.id = some row)
    (hguard : Automations.guarded ⟨a.version, some a.nextRunAt⟩ row = true)
    (hsets : Sets s.table U (row.scheduled t)) :
    Counted { s with table := U, fires := s.fires + 1,
                     tick := afterGuard ⟨s.fires, t, a, due⟩ rest,
                     log := s.log ++ [.guarded ⟨s.fires, t, a, due⟩ row] } := by
  have hfresh : ¬ Fired s.log ⟨s.fires, t, a, due⟩ :=
    fun hf => absurd (hsound.timely.fires _ hf) (lt_irrefl _)
  have hnone : s.tick.fire? = none := by rw [htick]; rfl
  refine ⟨?_, ?_, ?_⟩
  · intro f hf
    rw [List.countP_append]
    by_cases hnew : f = ⟨s.fires, t, a, due⟩
    · rw [hnew, countP_guards_eq_zero hfresh]
      simp [Event.guards]
    · rcases fired_snoc.mp hf with hf | ⟨row', he⟩
      · rw [h.once f hf]
        simp [Event.guards, Ne.symm hnew]
      · exact absurd (Event.guarded.inj he).1.symm hnew
  · intro f hf
    rw [List.countP_append, afterGuard_fire]
    by_cases hnew : f = ⟨s.fires, t, a, due⟩
    · rw [hnew, countP_starts_eq_zero fun o ho => hfresh (hsound.logged.started_fired ho)]
      simp [Event.starts]
    · rcases fired_snoc.mp hf with hf | ⟨row', he⟩
      · rw [h.started f hf, hnone]
        simp [Event.starts, Ne.symm hnew]
      · exact absurd (Event.guarded.inj he).1.symm hnew
  · intro f rest' hf
    have hfire := congrArg TickPc.fire? hf
    rw [afterGuard_fire] at hfire
    obtain rfl := Option.some.inj hfire
    refine ⟨row.scheduled t, ?_, hguard⟩
    rw [hsets, if_pos]
    exact (get_id hrow).symm

theorem Counted.startedOne {s : State} (h : Counted s) {f : Fire} {rest : List AutomationRecord}
    {o : StartOutcome} (htick : s.tick = .starting f rest) :
    Counted { s with tick := .rows f.now rest, log := s.log ++ [.started f o] } := by
  have hold : ∀ g, Fired (s.log ++ [.started f o]) g → Fired s.log g := by
    intro g hg
    rcases fired_snoc.mp hg with hg | ⟨row, he⟩
    · exact hg
    · cases he
  refine ⟨?_, ?_, by simp⟩
  · intro g hg
    rw [List.countP_append, h.once g (hold g hg)]
    simp [Event.guards]
  · intro g hg
    rw [List.countP_append, h.started g (hold g hg), htick]
    by_cases hfg : f = g
    · simp [TickPc.fire?, Event.starts, hfg]
    · simp [TickPc.fire?, Event.starts, hfg]

/-- A table write of another row, or one that keeps the columns of the guard, keeps the fire that
is being cleared. -/
theorem clearing_sets {s : State} (h : Counted s) {U : Rows} {id : String}
    {r x : AutomationRecord} (hrow : s.table.get id = some r) (hx : x.id = r.id)
    (hsets : Sets s.table U x) {f : Fire} {rest : List AutomationRecord}
    (htick : s.tick = .clearing f rest)
    (hkeep : id = f.listed.id → guarded f.guard r = true → guarded f.guard x = true) :
    ∃ r, U.get f.listed.id = some r ∧ guarded f.guard r = true := by
  obtain ⟨y, hy, hg⟩ := h.clearing f rest htick
  have hxid : x.id = id := hx.trans (get_id hrow)
  by_cases hid : f.listed.id = id
  · refine ⟨x, by rw [hsets, if_pos (hid.trans hxid.symm)], ?_⟩
    rw [hid, hrow] at hy
    obtain rfl := Option.some.inj hy
    exact hkeep hid.symm hg
  · exact ⟨y, by rw [hsets, if_neg (fun he => hid (he.trans hxid)), hy], hg⟩

theorem counted_step {s s' : State} {a : Action} (h : Counted s) (hsound : Sound crons slots s)
    (hok : Undisturbed s a) (hs : Step crons s a s') : Counted s' := by
  cases hs with
  | tick hidle hclock => exact h.move rfl (by rw [hidle]; rfl) rfl
  | listed htick => exact h.move rfl (by rw [htick]; rfl) rfl
  | ended htick => exact h.move rfl (by rw [htick]; rfl) rfl
  | passed htick => exact h.move rfl (by rw [htick]; rfl) rfl
  | guarded htick hdue hrow hguard hsets => exact h.guarded hsound htick hrow hguard hsets
  | spoiled htick hguard =>
    obtain ⟨r, hr, hg⟩ := h.clearing _ _ htick
    rw [hguard r hr] at hg
    cases hg
  | cleared htick hrow hguard hsets =>
    exact h.snoc rfl (by simp) (by simp) (by rw [htick]; rfl) (by simp)
  | started htick => exact h.startedOne htick
  | threw => exact h
  | edited hrow hsets =>
    refine h.snoc rfl (by simp) (by simp) rfl ?_
    intro f rest hf
    exact clearing_sets h hrow (AutomationRecord.edited_id _ _) hsets hf
      fun hid => absurd hid (hok f rest hf)
  | @switched id enabled now U hclock hU =>
    refine h.snoc rfl (by simp) (by simp) rfl ?_
    intro f rest hf
    have hne : id ≠ f.listed.id := hok f rest hf
    rw [hU, if_neg (Ne.symm hne)]
    exact h.clearing f rest hf
  | settling hclock => exact h.same rfl rfl rfl
  | settled hw => exact h.same rfl rfl rfl
  | @chosen n w time r U hw happlied hrow hguard hsets =>
    refine h.snoc rfl (by simp) (by simp) rfl ?_
    intro f rest hf
    refine clearing_sets h hrow (AutomationRecord.withNext_id _ _) hsets hf ?_
    intro hid hg
    have hnext : w.applied = f.listed.nextRunAt := hok f rest hf w hw hid
    obtain ⟨hversion, henabled, -⟩ := (guarded_iff rfl).mp hg
    refine (guarded_iff rfl).mpr ⟨hversion, henabled, ?_⟩
    exact happlied.symm.trans hnext

theorem counted_initial {s : State} (h : Initial s) : Counted s := by
  have hnot : ∀ f, ¬ Fired s.log f := by
    rintro f ⟨row, hrow⟩
    obtain ⟨r, m, t, -, -, -, he⟩ := choice_mem h hrow
    cases he
  refine ⟨fun f hf => absurd hf (hnot f), fun f hf => absurd hf (hnot f), ?_⟩
  intro f rest hf
  rw [h.tick] at hf
  cases hf

end Count

section Main
variable {Spec : Type} {crons : Crons Spec} {slots : Spec → Option String → Set ℤ} {deps : Deps}

theorem firesOnce_of_sound {s : State} (h : Sound crons slots s) (hc : Counted s) :
    FiresOnce crons slots s := by
  constructor
  · intro before f o between f' o' after hlog hid
    obtain ⟨-, hready⟩ := h.logged.log (before ++ .started f o :: between) (.started f' o') after
      (by simpa using hlog)
    exact hready.separated before f o between rfl hid
  · intro before f run between f' run' after hlog hid hrun
    obtain ⟨-, hnot⟩ := h.logged.log (before ++ .consumed f run :: between) (.consumed f' run')
      after (by simpa using hlog)
    exact hnot f (by simp [hrun]) hid
  · intro before f run after hlog
    exact (h.logged.log before (.consumed f run) after hlog).1
  · intro f o hmem hkind
    obtain ⟨before, after, hlog⟩ := List.append_of_mem hmem
    obtain ⟨-, hready⟩ := h.logged.log before (.started f o) after hlog
    obtain ⟨run, hrun⟩ := hready.consumed hkind
    exact ⟨run, hlog ▸ List.mem_append_left _ hrun⟩
  · intro f row hmem
    obtain ⟨before, after, hlog⟩ := List.append_of_mem hmem
    exact (h.logged.log before (.guarded f row) after hlog).1
  · exact fun f o hmem => h.logged.started_fired hmem
  · exact fun f row hmem => hc.once f ⟨row, hmem⟩
  · exact fun f row hmem => hc.started f ⟨row, hmem⟩

/-- In every run in which nothing disturbs the two writes of a fire that a run chose: two starts of
an automation are separated by a slot or a consumed time, every chosen time is consumed once and
before any edit or switch, and each first write that goes through leads to one start, of the
earliest due slot. -/
theorem slots_fire_once (hlaw : crons.Lawful slots) {s s' : State} {as : List Action}
    (h : Initial s) (hrun : run (step crons deps) s as = some s')
    (hok : Along (step crons deps) Undisturbed s as) : FiresOnce crons slots s' := by
  have hinv : Sound crons slots s' ∧ Counted s' := by
    refine run_invariant_along (I := fun s => Sound crons slots s ∧ Counted s) ?_
      ⟨sound_initial h, counted_initial h⟩ hrun hok
    intro s a t hs hok hstep
    have hcases := step_cases hstep
    exact ⟨sound_step hlaw hs.1 hcases, counted_step hs.2 hs.1 hok hcases⟩
  exact firesOnce_of_sound hinv.1 hinv.2

end Main

/-! A run with both kinds of fire. -/

/-- The cron that fires every minute. -/
def everyMinute : Crons Unit where
  parseCron := fun _ => some ()
  nextFire := fun _ after _ => some ((after / 60000 + 1) * 60000)

theorem everyMinute_lawful : everyMinute.Lawful fun _ _ => {u | ∃ k : ℤ, u = k * 60000} := by
  intro spec after tz
  refine ⟨⟨⟨_, rfl⟩, by omega⟩, ?_⟩
  rintro u ⟨⟨k, rfl⟩, hlt⟩
  omega

def minutely : AutomationDef :=
  { name := "check", triggers := [.schedule { cron := "* * * * *" }], reschedule := some "5m" }

def permissive : Deps := ⟨fun _ => none, fun _ => [], fun _ => none⟩

def minutelyStart : State where
  table := ⟨[⟨"a", "check", true, 1, minutely, 0, some 0, none, none⟩], by simp⟩
  clock := 0

def free : Standing := ⟨false, false, none⟩

/-- A tick fires the cron, its run chooses its next fire, and the tick that finds it due makes the
first of its two writes. -/
def chooseRun : List Action :=
  [.tick 60000, .advance 60000 free, .advance 60000 free, .advance 60000 free, .advance 60000 free,
    .settle "a" 1 true 0 70000, .settleRead 0, .settleWrite 0,
    .tick 370000, .advance 370000 free, .advance 370000 free]

theorem minutelyStart_initial : Initial minutelyStart :=
  ⟨rfl, fun _ => rfl, rfl, by simp [minutelyStart], by simp [minutelyStart]⟩

def chosenRun : List Action :=
  chooseRun ++ ([.advance 370000 free, .advance 370000 free, .advance 370000 free] : List Action)

theorem slots_fire_once_chosen :
    ∃ s, run (step everyMinute permissive) minutelyStart chosenRun = some s ∧
      FiresOnce everyMinute (fun _ _ => {u | ∃ k : ℤ, u = k * 60000}) s := by
  refine ⟨_, rfl, ?_⟩
  exact @slots_fire_once _ _ _ permissive everyMinute_lawful _ _ chosenRun minutelyStart_initial rfl
    (by decide +kernel)

/-- An edit between the two writes: the schedule clock has moved, and the tick ends without a
start. -/
theorem edit_swallows_fire : ∃ s, run (step everyMinute permissive) minutelyStart
      (chooseRun ++ [.update "a" minutely none, .advance 370000 free, .advance 370000 free]) =
        some s ∧
    ¬ FiresOnce everyMinute (fun _ _ => {u | ∃ k : ℤ, u = k * 60000}) s := by
  refine ⟨_, rfl, ?_⟩
  intro h
  have hcount := h.startedOnce
    ⟨1, 370000, ⟨"a", "check", true, 1, minutely, 0, some 60000, some 370000, some 0⟩,
      ⟨.rescheduled, none, 370000, []⟩⟩
    ⟨"a", "check", true, 1, minutely, 0, some 60000, some 370000, some 0⟩ (by decide +kernel)
  revert hcount
  decide +kernel

end ClaudeFleet.Automations
