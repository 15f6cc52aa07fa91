import ClaudeFleet.SqliteFiles

/-! No sidecar comes to stand beside a database it does not belong to, no file is lost, and a
retired database ends up in one directory with its sidecars, as long as no interrupted retire is
left behind when the next one starts. -/
namespace ClaudeFleet.SqliteFiles
open Transition

/-- Every file has one name, in a directory that exists. -/
structure Kept (s : State) : Prop where
  ext : ∀ p f, s.files p = some f → f.ext = p.2
  once : ∀ p q f, s.files p = some f → s.files q = some f → p = q
  known : ∀ f, f ∈ s.known ↔ ∃ p, s.files p = some f
  old : ∀ p f, s.files p = some f → f.owner < s.nextId
  homed : ∀ d e f, s.files (some d, e) = some f → d ∈ s.dirs
  nodup : s.dirs.Nodup
  past : ∀ d ∈ s.dirs, d.now ≤ s.clock
  apart : ∀ d ∈ s.dirs, ∀ d' ∈ s.dirs, d.now = d'.now → d = d'

/-- Every file stands with its database, but for the sidecars that a retire has yet to move. -/
structure Placed (s : State) : Prop where
  top : ∀ db e f, s.files inbox = some db → s.files (beside e) = some f → f.owner = db.owner
  one : ∀ d ∈ s.dirs, ∀ d' ∈ s.dirs, d.moving = true → d'.moving = true → d = d'
  staged : ∀ d ∈ s.dirs, d.moving = true →
    s.files inbox ≠ none ∧ (∀ e, s.files (inDir d e) = none) ∨
    s.files inbox = none ∧ ∃ db, s.files (inDir d none) = some db ∧
      (∀ e f, s.files (beside e) = some f → f.owner = db.owner) ∧
      ∀ e f, s.files (inDir d (some e)) = some f → f.owner = db.owner
  together : ∀ D db, s.files (D, none) = some db → ∀ p f, s.files p = some f →
    f.owner = db.owner → p.1 = D ∨ p.1 = none ∧ ∃ d, D = some d ∧ d.moving = true
  began : ∀ b ∈ s.began, (⟨b, none⟩ : File) ∈ s.known

/-- What a sweep has still to complete. -/
structure Entries (s : State) (now : ℕ) (entries : List Dir) : Prop where
  all : ∀ d ∈ s.dirs, d.moving = true → d ∈ entries
  staging : ∀ d ∈ entries, d ∈ s.dirs ∧ d.moving = true
  nodup : entries.Nodup
  later : ∀ d ∈ s.dirs, d.now < now
  clock : now = s.clock

def PcOk (s : State) : Pc → Prop
  | .idle => s.swept = true → (∀ d ∈ s.dirs, d.moving = false) ∧
      (s.files inbox = none → ∀ e, s.files (beside e) = none)
  | .moveDb d => d ∈ s.dirs ∧ d.moving = true ∧ s.files inbox ≠ none ∧ s.swept = false
  | .moveSidecars d exts => d ∈ s.dirs ∧ d.moving = true ∧ s.files inbox = none ∧
      (∀ e, e ∉ exts → s.files (beside e) = none) ∧ s.swept = false
  | .complete now entries => Entries s now entries ∧ s.swept = false
  | .adopt now d exts entries => Entries s now (d :: entries) ∧ s.files inbox = none ∧
      (∀ e, e ∉ exts → s.files (beside e) = none) ∧ s.swept = false
  | .close now d entries => Entries s now (d :: entries) ∧
      (s.files inbox = none → ∀ e, s.files (beside e) = none) ∧ s.swept = false
  | .quarantine q exts => q ∈ s.dirs ∧ (∀ d ∈ s.dirs, d.moving = false) ∧ s.files inbox = none ∧
      (∀ e, e ∉ exts → s.files (beside e) = none) ∧
      (∀ e ∈ exts, s.files (inDir q (some e)) = none) ∧ exts.Nodup ∧ s.swept = false

structure Inv (s : State) : Prop where
  kept : Kept s
  placed : Placed s
  pc : PcOk s s.pc

/-- The files move by `ρ`, and keep their extensions. -/
structure Relocated (s s' : State) (ρ : Name → Name) : Prop where
  fwd : ∀ p f, s.files p = some f → s'.files (ρ p) = some f
  bwd : ∀ r f, s'.files r = some f → ∃ p, s.files p = some f ∧ ρ p = r
  ext : ∀ p, (ρ p).2 = p.2

section Moves
variable {s s' : State} {ρ : Name → Name}

theorem Kept.relocate (h : Kept s) (hρ : Relocated s s' ρ) (hknown : s'.known = s.known)
    (hnext : s'.nextId = s.nextId) (hhomed : ∀ d e f, s'.files (some d, e) = some f → d ∈ s'.dirs)
    (hnodup : s'.dirs.Nodup) (hpast : ∀ d ∈ s'.dirs, d.now ≤ s'.clock)
    (hapart : ∀ d ∈ s'.dirs, ∀ d' ∈ s'.dirs, d.now = d'.now → d = d') : Kept s' := by
  refine ⟨?_, ?_, ?_, ?_, hhomed, hnodup, hpast, hapart⟩
  · intro r f hf
    obtain ⟨p, hp, rfl⟩ := hρ.bwd r f hf
    rw [hρ.ext]
    exact h.ext p f hp
  · intro r r' f hf hf'
    obtain ⟨p, hp, rfl⟩ := hρ.bwd r f hf
    obtain ⟨p', hp', rfl⟩ := hρ.bwd r' f hf'
    rw [h.once p p' f hp hp']
  · intro f
    rw [hknown, h.known f]
    constructor
    · rintro ⟨p, hp⟩
      exact ⟨ρ p, hρ.fwd p f hp⟩
    · rintro ⟨r, hr⟩
      obtain ⟨p, hp, -⟩ := hρ.bwd r f hr
      exact ⟨p, hp⟩
  · intro r f hf
    obtain ⟨p, hp, -⟩ := hρ.bwd r f hf
    rw [hnext]
    exact h.old p f hp

theorem relocated_rename {p q : Name} (hpq : p ≠ q) (hq : s.files q = none) (hext : q.2 = p.2) :
    Relocated s (s.rename p q) (fun r => if r = p then q else r) := by
  refine ⟨?_, ?_, ?_⟩
  · intro r f hf
    split_ifs with hr
    · subst hr
      simp [State.rename, hf]
    · have hrq : r ≠ q := by
        rintro rfl
        rw [hq] at hf
        cases hf
      simp [State.rename, hr, hrq, hf]
  · intro r f hf
    by_cases hr : r = q
    · subst hr
      refine ⟨p, ?_, if_pos rfl⟩
      simpa [State.rename] using hf
    · by_cases hp : r = p
      · subst hp
        simp [State.rename, hpq] at hf
      · refine ⟨r, ?_, if_neg hp⟩
        simpa [State.rename, hr, hp] using hf
  · intro r
    split_ifs with hr
    · rw [hr, hext]
    · rfl

theorem relocated_renameDir {d d' : Dir} (hd : d ≠ d') (hempty : ∀ e, s.files (some d', e) = none) :
    Relocated s (s.renameDir d d') (fun r => if r.1 = some d then (some d', r.2) else r) := by
  refine ⟨?_, ?_, ?_⟩
  · rintro ⟨D, e⟩ f hf
    dsimp only
    split_ifs with hD
    · subst hD
      simpa [State.renameDir] using hf
    · have hD' : D ≠ some d' := by
        rintro rfl
        rw [hempty] at hf
        cases hf
      simp [State.renameDir, hD, hD', hf]
  · rintro ⟨D, e⟩ f hf
    by_cases hD' : D = some d'
    · subst hD'
      refine ⟨(some d, e), by simpa [State.renameDir] using hf, by simp⟩
    · by_cases hD : D = some d
      · subst hD
        simp [State.renameDir, hd] at hf
      · refine ⟨(D, e), by simpa [State.renameDir, hD, hD'] using hf, by simp [hD]⟩
  · rintro ⟨D, e⟩
    dsimp only
    split_ifs <;> rfl

theorem Kept.goto (h : Kept s) (pc : Pc) : Kept (s.goto pc) :=
  ⟨h.ext, h.once, h.known, h.old, h.homed, h.nodup, h.past, h.apart⟩

theorem Placed.goto (h : Placed s) (pc : Pc) : Placed (s.goto pc) :=
  ⟨h.top, h.one, h.staged, h.together, h.began⟩

theorem Kept.finish (h : Kept s) : Kept { s with pc := .idle, swept := true } :=
  ⟨h.ext, h.once, h.known, h.old, h.homed, h.nodup, h.past, h.apart⟩

theorem Placed.finish (h : Placed s) : Placed { s with pc := .idle, swept := true } :=
  ⟨h.top, h.one, h.staged, h.together, h.began⟩

/-- A sidecar of the same name and owner is the same file. -/
theorem Kept.same (h : Kept s) {p q : Name} {f g : File} (hf : s.files p = some f)
    (hg : s.files q = some g) (howner : f.owner = g.owner) (hext : p.2 = q.2) : p = q := by
  have heq : f = g := by
    have h₁ := h.ext p f hf
    have h₂ := h.ext q g hg
    cases f
    cases g
    simp_all
  exact h.once p q f hf (heq ▸ hg)

/-- A file goes to a directory. -/
theorem Kept.rename (h : Kept s) {p : Name} {d : Dir} {e : Option Ext} (hp : p.1 = none)
    (he : p.2 = e) (hd : d ∈ s.dirs) (hfree : s.files (inDir d e) = none) :
    Kept (s.rename p (inDir d e)) := by
  have hpq : p ≠ inDir d e := by
    rintro rfl
    cases hp
  have hρ := relocated_rename hpq hfree he.symm
  refine h.relocate hρ rfl rfl ?_ h.nodup h.past h.apart
  intro d' e' f hf
  obtain ⟨r, hr, heq⟩ := hρ.bwd _ f hf
  split_ifs at heq with hrp
  · obtain ⟨hdd, -⟩ := Prod.mk.inj heq
    exact Option.some.inj hdd ▸ hd
  · rw [heq] at hr
    exact h.homed d' e' f hr

/-- A staging directory gets its last name. -/
theorem Kept.close (h : Kept s) {d : Dir} (hd : d ∈ s.dirs) (hmoving : d.moving = true) :
    d.done ∉ s.dirs ∧ Kept (s.renameDir d d.done) := by
  have hne : d ≠ d.done := by
    intro heq
    rw [heq] at hmoving
    cases hmoving
  have hfresh : d.done ∉ s.dirs := fun hin => hne (h.apart d hd d.done hin rfl)
  have hempty : ∀ e, s.files (some d.done, e) = none := by
    intro e
    by_contra hsome
    obtain ⟨f, hf⟩ := Option.ne_none_iff_exists'.mp hsome
    exact hfresh (h.homed d.done e f hf)
  have hρ := relocated_renameDir hne hempty
  have hmem : ∀ x ∈ (s.renameDir d d.done).dirs, ∃ y ∈ s.dirs, (if y = d then d.done else y) = x :=
    fun x hx => List.mem_map.mp hx
  have hnow : ∀ y : Dir, (if y = d then d.done else y).now = y.now := by
    intro y
    split_ifs with hy
    · rw [hy]
      rfl
    · rfl
  refine ⟨hfresh, h.relocate hρ rfl rfl ?_ ?_ ?_ ?_⟩
  · intro d' e' f hf
    obtain ⟨⟨D, e⟩, hr, heq⟩ := hρ.bwd _ f hf
    split_ifs at heq with hD
    · obtain ⟨hd', -⟩ := Prod.mk.inj heq
      rw [← Option.some.inj hd']
      exact List.mem_map.mpr ⟨d, hd, if_pos rfl⟩
    · rw [heq] at hr hD
      refine List.mem_map.mpr ⟨d', h.homed d' e' f hr, if_neg ?_⟩
      rintro rfl
      exact hD rfl
  · refine h.nodup.map_on ?_
    intro x hx y hy heq
    refine h.apart x hx y hy ?_
    rw [← hnow x, ← hnow y, heq]
  · intro x hx
    obtain ⟨y, hy, rfl⟩ := hmem x hx
    rw [hnow y]
    exact h.past y hy
  · intro x hx x' hx' heq
    obtain ⟨y, hy, rfl⟩ := hmem x hx
    obtain ⟨y', hy', rfl⟩ := hmem x' hx'
    rw [hnow, hnow] at heq
    rw [h.apart y hy y' hy' heq]

theorem files_rename_self (p q : Name) (hpq : p ≠ q) : (s.rename p q).files p = none := by
  simp [State.rename, hpq]

theorem files_rename_of_ne {p q r : Name} (hp : r ≠ p) (hq : r ≠ q) :
    (s.rename p q).files r = s.files r := by
  simp [State.rename, hp, hq]

theorem files_rename_to (p q : Name) : (s.rename p q).files q = s.files p := by
  simp [State.rename]

/-- The database goes to its staging directory. -/
theorem Placed.moveDb (h : Placed s) (hk : Kept s) {d : Dir} (hd : d ∈ s.dirs)
    (hmoving : d.moving = true) (hinbox : s.files inbox ≠ none) :
    Kept (s.rename inbox (inDir d none)) ∧ Placed (s.rename inbox (inDir d none)) ∧
      (s.rename inbox (inDir d none)).files inbox = none := by
  have hempty : ∀ e, s.files (inDir d e) = none := by
    rcases h.staged d hd hmoving with ⟨-, hempty⟩ | ⟨hnone, -⟩
    · exact hempty
    · exact absurd hnone hinbox
  obtain ⟨db, hdb⟩ := Option.ne_none_iff_exists'.mp hinbox
  have hpq : inbox ≠ inDir d none := by
    intro heq
    cases heq
  have hρ := relocated_rename hpq (hempty none) rfl
  have hgone := files_rename_self (s := s) inbox (inDir d none) hpq
  have hthere : (s.rename inbox (inDir d none)).files (inDir d none) = some db :=
    (files_rename_to _ _).trans hdb
  refine ⟨hk.rename rfl rfl hd (hempty none), ⟨?_, h.one, ?_, ?_, h.began⟩, hgone⟩
  · intro db' e f hdb'
    rw [hgone] at hdb'
    cases hdb'
  · intro d' hd' hmoving'
    obtain rfl := h.one d' hd' d hd hmoving' hmoving
    refine Or.inr ⟨hgone, db, hthere, ?_, ?_⟩
    · intro e f hf
      rw [files_rename_of_ne (by nofun) (by nofun)] at hf
      exact h.top db e f hdb hf
    · intro e f hf
      rw [files_rename_of_ne (by nofun) (by simp [inDir])] at hf
      rw [hempty] at hf
      cases hf
  · intro D db' hdb' r f hf howner
    obtain ⟨q, hq, hqD⟩ := hρ.bwd _ _ hdb'
    obtain ⟨p, hp, rfl⟩ := hρ.bwd r f hf
    split_ifs at hqD with hqi
    · -- the database that moved: its sidecars are still beside inbox.db
      subst hqi
      obtain ⟨rfl, -⟩ := Prod.mk.inj hqD
      rw [hdb] at hq
      obtain rfl := Option.some.inj hq
      split_ifs with hpi
      · exact Or.inl rfl
      · rcases h.together none db hdb p f hp howner with hnone | ⟨hnone, -⟩
        · exact Or.inr ⟨hnone, d, rfl, hmoving⟩
        · exact Or.inr ⟨hnone, d, rfl, hmoving⟩
    · subst hqD
      split_ifs with hpi
      · subst hpi
        have hsame := hk.same hp hq howner rfl
        exact absurd hsame.symm hqi
      · exact h.together D db' hq p f hp howner

/-- A sidecar follows its database. -/
theorem Placed.moveSidecar (h : Placed s) (hk : Kept s) {d : Dir} (hd : d ∈ s.dirs)
    (hmoving : d.moving = true) (hinbox : s.files inbox = none) {e : Ext}
    (he : s.files (beside e) ≠ none) :
    Kept (s.rename (beside e) (inDir d (some e))) ∧
      Placed (s.rename (beside e) (inDir d (some e))) ∧
      (s.rename (beside e) (inDir d (some e))).files inbox = none ∧
      s.files (inDir d (some e)) = none := by
  obtain ⟨db, hdb, hbeside, hinside⟩ : ∃ db, s.files (inDir d none) = some db ∧
      (∀ e f, s.files (beside e) = some f → f.owner = db.owner) ∧
      ∀ e f, s.files (inDir d (some e)) = some f → f.owner = db.owner := by
    rcases h.staged d hd hmoving with ⟨hsome, -⟩ | ⟨-, hstaged⟩
    · exact absurd hinbox hsome
    · exact hstaged
  obtain ⟨f₀, hf₀⟩ := Option.ne_none_iff_exists'.mp he
  have hfree : s.files (inDir d (some e)) = none := by
    by_contra hsome
    obtain ⟨g, hg⟩ := Option.ne_none_iff_exists'.mp hsome
    have hsame := hk.same hf₀ hg ((hbeside e f₀ hf₀).trans (hinside e g hg).symm) rfl
    cases hsame
  have hpq : beside e ≠ inDir d (some e) := by
    intro heq
    cases heq
  have hρ := relocated_rename hpq hfree rfl
  have hgone : (s.rename (beside e) (inDir d (some e))).files inbox = none := by
    rw [files_rename_of_ne (by nofun) (by nofun)]
    exact hinbox
  refine ⟨hk.rename rfl rfl hd hfree, ⟨?_, h.one, ?_, ?_, h.began⟩, hgone, hfree⟩
  · intro db' e' f hdb'
    rw [hgone] at hdb'
    cases hdb'
  · intro d' hd' hmoving'
    obtain rfl := h.one d' hd' d hd hmoving' hmoving
    refine Or.inr ⟨hgone, db, ?_, ?_, ?_⟩
    · rw [files_rename_of_ne (by nofun) (by simp [inDir])]
      exact hdb
    · intro e' f hf
      obtain ⟨p, hp, hpe⟩ := hρ.bwd _ f hf
      split_ifs at hpe with hpb
      · cases hpe
      · subst hpe
        exact hbeside e' f hp
    · intro e' f hf
      obtain ⟨p, hp, hpe⟩ := hρ.bwd _ f hf
      split_ifs at hpe with hpb
      · subst hpb
        exact hbeside e f hp
      · subst hpe
        exact hinside e' f hp
  · intro D db' hdb' r f hf howner
    obtain ⟨q, hq, hqD⟩ := hρ.bwd _ _ hdb'
    obtain ⟨p, hp, rfl⟩ := hρ.bwd r f hf
    split_ifs at hqD with hqi
    · cases hqD
    subst hqD
    split_ifs with hpi
    · subst hpi
      rw [hf₀] at hp
      obtain rfl := Option.some.inj hp
      have hsame := hk.same hq hdb (howner.symm.trans (hbeside e f₀ hf₀)) rfl
      obtain ⟨rfl, -⟩ := Prod.mk.inj hsame
      exact Or.inl rfl
    · exact h.together D db' hq p f hp howner

/-- A staging directory that holds its database and every sidecar gets its last name. -/
theorem Placed.close (h : Placed s) (hk : Kept s) {d : Dir} (hd : d ∈ s.dirs)
    (hmoving : d.moving = true) (hinbox : s.files inbox = none)
    (hbeside : ∀ e, s.files (beside e) = none) :
    Placed (s.renameDir d d.done) ∧ (∀ x ∈ (s.renameDir d d.done).dirs, x.moving = false) ∧
      (s.renameDir d d.done).files inbox = none ∧
      ∀ e, (s.renameDir d d.done).files (beside e) = none := by
  have hne : d ≠ d.done := by
    intro heq
    rw [heq] at hmoving
    cases hmoving
  have hempty : ∀ e, s.files (some d.done, e) = none := by
    intro e
    by_contra hsome
    obtain ⟨f, hf⟩ := Option.ne_none_iff_exists'.mp hsome
    exact (hk.close hd hmoving).1 (hk.homed d.done e f hf)
  have hρ := relocated_renameDir hne hempty
  have hstill : ∀ x ∈ (s.renameDir d d.done).dirs, x.moving = false := by
    intro x hx
    obtain ⟨y, hy, rfl⟩ := List.mem_map.mp hx
    split_ifs with hyd
    · rfl
    · rw [Bool.eq_false_iff]
      exact fun hym => hyd (h.one y hy d hd hym hmoving)
  have htop : ∀ e, (s.renameDir d d.done).files (none, e) = s.files (none, e) := by
    intro e
    simp [State.renameDir]
  have hnothing : ∀ p f, s.files p = some f → p.1 ≠ none := by
    rintro ⟨D, e⟩ f hf rfl
    cases e with
    | none =>
      rw [show s.files (none, none) = none from hinbox] at hf
      cases hf
    | some e =>
      rw [show s.files (none, some e) = none from hbeside e] at hf
      cases hf
  refine ⟨⟨?_, ?_, ?_, ?_, h.began⟩, hstill, (htop none).trans hinbox,
    fun e => (htop (some e)).trans (hbeside e)⟩
  · intro db e f hdb
    rw [show (s.renameDir d d.done).files inbox = none from (htop none).trans hinbox] at hdb
    cases hdb
  · intro x hx x' _ hxm
    rw [hstill x hx] at hxm
    cases hxm
  · intro x hx hxm
    rw [hstill x hx] at hxm
    cases hxm
  · intro D db hdb r f hf howner
    obtain ⟨q, hq, hqD⟩ := hρ.bwd _ _ hdb
    obtain ⟨p, hp, rfl⟩ := hρ.bwd r f hf
    -- nothing is left in userData, so the file stands in the directory of its database
    have hqnone : q.2 = none := by
      have hext := hρ.ext q
      rw [hqD] at hext
      exact hext.symm
    have hpq : p.1 = q.1 := by
      have hq' : s.files (q.1, none) = some db := by
        rw [← hqnone]
        exact hq
      rcases h.together q.1 db hq' p f hp howner with hsame | ⟨hnone, -⟩
      · exact hsame
      · exact absurd hnone (hnothing p f hp)
    left
    rw [hpq]
    split_ifs at hqD ⊢ with hqd
    · exact (Prod.mk.inj hqD).1
    · rw [hpq, hqD]

/-- A sidecar of no database goes to a directory of its own. -/
theorem Placed.quarantine (h : Placed s) (hk : Kept s) {q : Dir} (hq : q ∈ s.dirs)
    (hstill : ∀ d ∈ s.dirs, d.moving = false) (hinbox : s.files inbox = none) {e : Ext}
    (hfree : s.files (inDir q (some e)) = none) :
    Kept (s.rename (beside e) (inDir q (some e))) ∧
      Placed (s.rename (beside e) (inDir q (some e))) ∧
      (s.rename (beside e) (inDir q (some e))).files inbox = none := by
  have hpq : beside e ≠ inDir q (some e) := by
    intro heq
    cases heq
  have hρ := relocated_rename hpq hfree rfl
  have hgone : (s.rename (beside e) (inDir q (some e))).files inbox = none := by
    rw [files_rename_of_ne (by nofun) (by nofun)]
    exact hinbox
  refine ⟨hk.rename rfl rfl hq hfree, ⟨?_, h.one, ?_, ?_, h.began⟩, hgone⟩
  · intro db' e' f hdb'
    rw [hgone] at hdb'
    cases hdb'
  · intro d hd hmoving
    rw [hstill d hd] at hmoving
    cases hmoving
  · intro D db hdb r f hf howner
    obtain ⟨q', hq', hqD⟩ := hρ.bwd _ _ hdb
    obtain ⟨p, hp, rfl⟩ := hρ.bwd r f hf
    split_ifs at hqD with hqi
    · cases hqD
    subst hqD
    have hold := h.together D db hq' p f hp howner
    split_ifs with hpi
    · subst hpi
      rcases hold with hD | ⟨-, d, rfl, hmoving⟩
      · obtain rfl : none = D := hD
        rw [show s.files (none, none) = none from hinbox] at hq'
        cases hq'
      · rw [hstill d (hk.homed d none db hq')] at hmoving
        cases hmoving
    · exact hold

theorem Kept.mkdir (h : Kept s) {d : Dir} (hnow : ∀ x ∈ s.dirs, x.now < d.now)
    (hclock : d.now ≤ s.clock) : Kept (s.mkdir d) := by
  have hmem : ∀ x ∈ (s.mkdir d).dirs, x ∈ s.dirs ∨ x = d := by
    intro x hx
    simpa [State.mkdir] using hx
  have hfresh : d ∉ s.dirs := fun hin => absurd (hnow d hin) (lt_irrefl _)
  refine ⟨h.ext, h.once, h.known, h.old, ?_, ?_, ?_, ?_⟩
  · intro d' e f hf
    exact List.mem_append_left _ (h.homed d' e f hf)
  · exact h.nodup.append (List.nodup_singleton d) (List.disjoint_singleton.mpr hfresh)
  · intro x hx
    rcases hmem x hx with hx | rfl
    · exact h.past x hx
    · exact hclock
  · intro x hx y hy heq
    rcases hmem x hx with hxs | hxd
    · rcases hmem y hy with hys | hyd
      · exact h.apart x hxs y hys heq
      · exact absurd (heq.trans (congrArg Dir.now hyd)) (hnow x hxs).ne
    · rcases hmem y hy with hys | hyd
      · exact absurd (heq.symm.trans (congrArg Dir.now hxd)) (hnow y hys).ne
      · exact hxd.trans hyd.symm

theorem Kept.empty_of_notMem (h : Kept s) {d : Dir} (hd : d ∉ s.dirs) (e : Option Ext) :
    s.files (inDir d e) = none := by
  by_contra hsome
  obtain ⟨f, hf⟩ := Option.ne_none_iff_exists'.mp hsome
  exact hd (h.homed d e f hf)

/-- A directory for orphans is no staging directory. -/
theorem Placed.mkdirStill (h : Placed s) {d : Dir} (hd : d.moving = false) :
    Placed (s.mkdir d) := by
  have hmem : ∀ x ∈ (s.mkdir d).dirs, x.moving = true → x ∈ s.dirs := by
    intro x hx hxm
    rcases List.mem_append.mp hx with hx | hx
    · exact hx
    · rw [List.mem_singleton.mp hx, hd] at hxm
      cases hxm
  refine ⟨h.top, ?_, ?_, h.together, h.began⟩
  · exact fun x hx y hy hxm hym => h.one x (hmem x hx hxm) y (hmem y hy hym) hxm hym
  · exact fun x hx hxm => h.staged x (hmem x hx hxm) hxm

end Moves

/-! Steps. -/

section Steps
variable {s s' : State}

theorem exists?_iff {p : Name} : s.exists? p = true ↔ s.files p ≠ none := by
  rw [State.exists?, Option.isSome_iff_ne_none]

theorem mem_sidecars (e : Ext) : e ∈ SQLITE_SIDECARS := by
  cases e <;> decide

/-- The rest of a list of extensions, once one of them is done. -/
theorem done_of_cons {P : Ext → Prop} {e : Ext} {exts : List Ext} (he : P e)
    (h : ∀ e', e' ∉ e :: exts → P e') : ∀ e', e' ∉ exts → P e' := by
  intro e' he'
  by_cases heq : e' = e
  · exact heq ▸ he
  · exact h e' (by simp [heq, he'])

theorem beside_rename_of_ne {e e' : Ext} {d : Dir} (he : e' ≠ e) :
    (s.rename (beside e) (inDir d (some e))).files (beside e') = s.files (beside e') :=
  files_rename_of_ne (by simp [beside, he]) (by nofun)

/-- The sidecars that are done stay so when one more moves. -/
theorem beside_rename (d : Dir) {e : Ext} {exts : List Ext}
    (h : ∀ e', e' ∉ e :: exts → s.files (beside e') = none) :
    ∀ e', e' ∉ exts → (s.rename (beside e) (inDir d (some e))).files (beside e') = none := by
  intro e' he'
  by_cases heq : e' = e
  · rw [heq]
    exact files_rename_self _ _ (by nofun)
  · rw [beside_rename_of_ne heq]
    exact h e' (by simp [heq, he'])

theorem orphans_inv {now : ℕ} (h : Inv s) (he : Entries s now []) (hswept : s.swept = false) :
    Inv (s.orphans now) := by
  have hstill : ∀ d ∈ s.dirs, d.moving = false := by
    intro d hd
    rw [Bool.eq_false_iff]
    intro hm
    cases he.all d hd hm
  unfold State.orphans
  dsimp only
  split_ifs with hdone
  · refine ⟨h.kept.finish, h.placed.finish, ?_⟩
    intro _
    refine ⟨hstill, fun hnone e => ?_⟩
    rcases hdone with hsome | hnil
    · exact absurd hnone (exists?_iff.mp hsome)
    · by_contra hsome
      have hmem : e ∈ SQLITE_SIDECARS.filter fun e => s.exists? (beside e) :=
        List.mem_filter.mpr ⟨mem_sidecars e, exists?_iff.mpr hsome⟩
      rw [hnil] at hmem
      cases hmem
  · obtain ⟨hinbox, -⟩ := not_or.mp hdone
    have hinbox : s.files inbox = none := by
      by_contra hsome
      exact hinbox (exists?_iff.mpr hsome)
    have hfresh : (⟨"orphaned", now, false⟩ : Dir) ∉ s.dirs :=
      fun hin => absurd (he.later _ hin) (lt_irrefl _)
    refine ⟨(h.kept.mkdir he.later he.clock.le).goto _, (h.placed.mkdirStill rfl).goto _, ?_⟩
    refine ⟨List.mem_append_right _ (by simp), ?_, hinbox, ?_, ?_, ?_, hswept⟩
    · intro d hd
      rcases List.mem_append.mp hd with hd | hd
      · exact hstill d hd
      · rw [List.mem_singleton.mp hd]
    · intro e hnot
      by_contra hsome
      exact hnot (List.mem_filter.mpr ⟨mem_sidecars e, exists?_iff.mpr hsome⟩)
    · exact fun e _ => h.kept.empty_of_notMem hfresh (some e)
    · exact List.Nodup.filter _ (by decide)

theorem close_inv {now : ℕ} {d : Dir} {entries : List Dir} (h : Inv s)
    (he : Entries s now (d :: entries))
    (hclean : s.files inbox = none → ∀ e, s.files (beside e) = none) (hswept : s.swept = false)
    (hs : (if (none :: SQLITE_SIDECARS.map some).all fun e => !s.exists? (inDir d e) then
      some ({ s with dirs := s.dirs.filter fun x => x ≠ d }.goto (.complete now entries))
      else some ((s.renameDir d d.done).goto (.complete now entries))) = some s') : Inv s' := by
  obtain ⟨hd, hmoving⟩ := he.staging d List.mem_cons_self
  obtain ⟨hnotin, hrest⟩ := List.nodup_cons.mp he.nodup
  have hlast : entries = [] := by
    apply List.eq_nil_iff_forall_not_mem.mpr
    intro x hx
    obtain ⟨hxs, hxm⟩ := he.staging x (List.mem_cons_of_mem d hx)
    exact hnotin (h.placed.one x hxs d hd hxm hmoving ▸ hx)
  subst hlast
  split_ifs at hs with hempty <;> obtain rfl := Option.some.inj hs
  · have hnone : ∀ e, s.files (inDir d e) = none := by
      intro e
      have hall := List.all_eq_true.mp hempty e (by cases e with
        | none => simp
        | some e => simp [mem_sidecars e])
      simpa [State.exists?] using hall
    have hmem : ∀ x, x ∈ s.dirs.filter (fun x => x ≠ d) ↔ x ∈ s.dirs ∧ x ≠ d := by simp
    have hstill : ∀ x ∈ s.dirs.filter (fun x => x ≠ d), x.moving = false := by
      intro x hx
      obtain ⟨hxs, hxd⟩ := (hmem x).mp hx
      rw [Bool.eq_false_iff]
      exact fun hxm => hxd (h.placed.one x hxs d hd hxm hmoving)
    refine ⟨⟨h.kept.ext, h.kept.once, h.kept.known, h.kept.old, ?_, h.kept.nodup.filter _, ?_, ?_⟩,
      ⟨h.placed.top, ?_, ?_, h.placed.together, h.placed.began⟩,
      ⟨?_, by simp, List.nodup_nil, ?_, he.clock⟩, hswept⟩
    · intro x e f hf
      refine (hmem x).mpr ⟨h.kept.homed x e f hf, ?_⟩
      rintro rfl
      have := hnone e
      simp only [State.goto] at hf
      rw [show s.files (some x, e) = none from this] at hf
      cases hf
    · exact fun x hx => h.kept.past x ((hmem x).mp hx).1
    · exact fun x hx y hy => h.kept.apart x ((hmem x).mp hx).1 y ((hmem y).mp hy).1
    · intro x hx y _ hxm
      rw [hstill x hx] at hxm
      cases hxm
    · intro x hx hxm
      rw [hstill x hx] at hxm
      cases hxm
    · intro x hx hxm
      rw [hstill x hx] at hxm
      cases hxm
    · exact fun x hx => he.later x ((hmem x).mp hx).1
  · have hinbox : s.files inbox = none := by
      rcases h.placed.staged d hd hmoving with ⟨-, hnone⟩ | ⟨hinbox, -⟩
      · exact absurd (List.all_eq_true.mpr fun e _ => by simp [State.exists?, hnone e]) hempty
      · exact hinbox
    obtain ⟨hp, hstill, -, -⟩ := h.placed.close h.kept hd hmoving hinbox (hclean hinbox)
    refine ⟨(h.kept.close hd hmoving).2.goto _, hp.goto _, ⟨?_, by simp, List.nodup_nil, ?_,
      he.clock⟩, hswept⟩
    · intro x hx hxm
      rw [hstill x hx] at hxm
      cases hxm
    · intro x hx
      obtain ⟨y, hy, rfl⟩ := List.mem_map.mp hx
      split_ifs with hyd
      · exact he.later d hd
      · exact he.later y hy

theorem advance_inv (h : Inv s) (hs : s.advance = some s') : Inv s' := by
  have hpc := h.pc
  unfold State.advance at hs
  split at hs
  case h_1 => cases hs
  case h_2 d heq =>
    rw [heq] at hpc
    obtain ⟨hd, hmoving, hinbox, hswept⟩ := hpc
    obtain ⟨hk, hp, hgone⟩ := h.placed.moveDb h.kept hd hmoving hinbox
    obtain rfl := Option.some.inj hs
    exact ⟨hk.goto _, hp.goto _, hd, hmoving, hgone, fun e he => absurd (mem_sidecars e) he, hswept⟩
  case h_3 d e exts heq =>
    rw [heq] at hpc
    obtain ⟨hd, hmoving, hinbox, hdone, hswept⟩ := hpc
    split_ifs at hs with hex
    · obtain ⟨hk, hp, hgone, -⟩ :=
        h.placed.moveSidecar h.kept hd hmoving hinbox (exists?_iff.mp hex)
      obtain rfl := Option.some.inj hs
      exact ⟨hk.goto _, hp.goto _, hd, hmoving, hgone, beside_rename d hdone, hswept⟩
    · obtain rfl := Option.some.inj hs
      have hnone : s.files (beside e) = none := by
        by_contra hsome
        exact hex (exists?_iff.mpr hsome)
      exact ⟨h.kept.goto _, h.placed.goto _, hd, hmoving, hinbox, done_of_cons hnone hdone, hswept⟩
  case h_4 d heq =>
    rw [heq] at hpc
    obtain ⟨hd, hmoving, hinbox, hdone, hswept⟩ := hpc
    obtain ⟨hp, hstill, hgone, hclean⟩ :=
      h.placed.close h.kept hd hmoving hinbox fun e => hdone e (by simp)
    obtain rfl := Option.some.inj hs
    exact ⟨(h.kept.close hd hmoving).2.goto _, hp.goto _, fun _ => ⟨hstill, fun _ => hclean⟩⟩
  case h_5 now d entries heq =>
    rw [heq] at hpc
    obtain ⟨he, hswept⟩ := hpc
    split_ifs at hs with hex <;> obtain rfl := Option.some.inj hs
    · refine ⟨h.kept.goto _, h.placed.goto _, ⟨he.all, he.staging, he.nodup, he.later, he.clock⟩,
        ?_, hswept⟩
      exact fun hnone => absurd hnone (exists?_iff.mp hex)
    · have hnone : s.files inbox = none := by
        by_contra hsome
        exact hex (exists?_iff.mpr hsome)
      exact ⟨h.kept.goto _, h.placed.goto _, ⟨he.all, he.staging, he.nodup, he.later, he.clock⟩,
        hnone, fun e hnot => absurd (mem_sidecars e) hnot, hswept⟩
  case h_6 now heq =>
    rw [heq] at hpc
    obtain rfl := Option.some.inj hs
    exact orphans_inv h hpc.1 hpc.2
  case h_7 now d e exts entries heq =>
    rw [heq] at hpc
    obtain ⟨he, hinbox, hdone, hswept⟩ := hpc
    obtain ⟨hd, hmoving⟩ := he.staging d List.mem_cons_self
    split_ifs at hs with hex <;> obtain rfl := Option.some.inj hs
    · obtain ⟨hk, hp, hgone, -⟩ :=
        h.placed.moveSidecar h.kept hd hmoving hinbox (exists?_iff.mp hex.1)
      exact ⟨hk.goto _, hp.goto _, ⟨he.all, he.staging, he.nodup, he.later, he.clock⟩, hgone,
        beside_rename d hdone, hswept⟩
    · have hnone : s.files (beside e) = none := by
        by_contra hsome
        obtain ⟨-, -, -, hfree⟩ := h.placed.moveSidecar h.kept hd hmoving hinbox hsome
        exact hex ⟨exists?_iff.mpr hsome, by rw [State.exists?, hfree]; rfl⟩
      exact ⟨h.kept.goto _, h.placed.goto _, ⟨he.all, he.staging, he.nodup, he.later, he.clock⟩,
        hinbox, done_of_cons hnone hdone, hswept⟩
  case h_8 now d entries heq =>
    rw [heq] at hpc
    obtain ⟨he, hinbox, hdone, hswept⟩ := hpc
    obtain rfl := Option.some.inj hs
    exact ⟨h.kept.goto _, h.placed.goto _, ⟨he.all, he.staging, he.nodup, he.later, he.clock⟩,
      fun _ e => hdone e (by simp), hswept⟩
  case h_9 now d entries heq =>
    rw [heq] at hpc
    obtain ⟨he, hclean, hswept⟩ := hpc
    exact close_inv h he hclean hswept hs
  case h_10 q e exts heq =>
    rw [heq] at hpc
    obtain ⟨hq, hstill, hinbox, hdone, hfree, hnodup, hswept⟩ := hpc
    obtain ⟨hnotin, hrest⟩ := List.nodup_cons.mp hnodup
    obtain ⟨hk, hp, hgone⟩ :=
      h.placed.quarantine h.kept hq hstill hinbox (hfree e List.mem_cons_self)
    obtain rfl := Option.some.inj hs
    refine ⟨hk.goto _, hp.goto _, hq, hstill, hgone, beside_rename q hdone, ?_, hrest, hswept⟩
    intro e' he'
    have hne : e' ≠ e := ne_of_mem_of_not_mem he' hnotin
    show (s.rename (beside e) (inDir q (some e))).files (inDir q (some e')) = none
    rw [files_rename_of_ne (by nofun) (by simp [inDir, hne])]
    exact hfree e' (List.mem_cons_of_mem e he')
  case h_11 q heq =>
    rw [heq] at hpc
    obtain ⟨hq, hstill, hinbox, hdone, -, -, -⟩ := hpc
    obtain rfl := Option.some.inj hs
    exact ⟨h.kept.finish, h.placed.finish, fun _ => ⟨hstill, fun _ e => hdone e (by simp)⟩⟩

/-- A retire starts with no interrupted one left behind, as after a completed sweep. -/
def Ready (s : State) : Action → Prop
  | .retire _ _ => s.files inbox = none ∨ s.moving = []
  | _ => True

instance (s : State) (a : Action) : Decidable (Ready s a) := by
  cases a <;> unfold Ready <;> infer_instance

theorem notMoving_of_nil (h : s.moving = []) : ∀ d ∈ s.dirs, d.moving = false := by
  intro d hd
  rw [Bool.eq_false_iff]
  intro hm
  have hin : d ∈ s.moving := List.mem_filter.mpr ⟨hd, hm⟩
  rw [h] at hin
  cases hin

theorem retire_inv {now : ℕ} {tag : String} (h : Inv s) (hok : Ready s (.retire now tag))
    (hs : step s (.retire now tag) = some s') : Inv s' := by
  simp only [step] at hs
  split_ifs at hs with hstart
  obtain ⟨hidle, hclock⟩ := hstart
  have hpast : ∀ d ∈ s.dirs, d.now < now := fun d hd => (h.kept.past d hd).trans_lt hclock
  split at hs <;> obtain rfl := Option.some.inj hs
  · refine ⟨⟨h.kept.ext, h.kept.once, h.kept.known, h.kept.old, h.kept.homed, h.kept.nodup,
      fun d hd => (hpast d hd).le, h.kept.apart⟩,
      ⟨h.placed.top, h.placed.one, h.placed.staged, h.placed.together, h.placed.began⟩, ?_⟩
    show PcOk _ s.pc
    rw [hidle]
    nofun
  · next db hdb =>
    have hinbox : s.files inbox ≠ none := by
      rw [hdb]
      nofun
    have hstill := notMoving_of_nil (hok.resolve_left hinbox)
    have hfresh : (⟨tag, now, true⟩ : Dir) ∉ s.dirs :=
      fun hin => absurd (hpast _ hin) (lt_irrefl _)
    have hk : Kept { s with clock := now, swept := false, began := s.began ++ [db.owner] } :=
      ⟨h.kept.ext, h.kept.once, h.kept.known, h.kept.old, h.kept.homed, h.kept.nodup,
        fun d hd => (hpast d hd).le, h.kept.apart⟩
    have hstaging : ∀ d ∈ s.dirs ++ [(⟨tag, now, true⟩ : Dir)], d.moving = true →
        d = ⟨tag, now, true⟩ := by
      intro d hd hm
      rcases List.mem_append.mp hd with hd | hd
      · rw [hstill d hd] at hm
        cases hm
      · exact List.mem_singleton.mp hd
    refine ⟨(hk.mkdir hpast le_rfl).goto _, ⟨h.placed.top, ?_, ?_, h.placed.together, ?_⟩,
      List.mem_append_right _ (by simp), rfl, hinbox, rfl⟩
    · intro d hd d' hd' hm hm'
      rw [hstaging d hd hm, hstaging d' hd' hm']
    · intro d hd hm
      rw [hstaging d hd hm]
      exact Or.inl ⟨hinbox, h.kept.empty_of_notMem hfresh⟩
    · intro b hb
      rcases List.mem_append.mp hb with hb | hb
      · exact h.placed.began b hb
      · rw [List.mem_singleton.mp hb]
        refine (h.kept.known _).mpr ⟨inbox, ?_⟩
        have hext := h.kept.ext inbox db hdb
        rw [hdb]
        cases db
        simp_all [inbox]

theorem files_add {q : Name} {x : File} (hfiles : s'.files = Function.update s.files q (some x))
    (p : Name) (f : File) :
    s'.files p = some f ↔ p = q ∧ f = x ∨ p ≠ q ∧ s.files p = some f := by
  rw [hfiles]
  by_cases hp : p = q
  · subst hp
    simp [eq_comm]
  · simp [hp]

/-- A new file takes a free name in userData. -/
theorem Kept.add (h : Kept s) {q : Name} {x : File}
    (hfiles : s'.files = Function.update s.files q (some x)) (hknown : s'.known = s.known ++ [x])
    (hdirs : s'.dirs = s.dirs) (hclock : s'.clock = s.clock) (hnext : s.nextId ≤ s'.nextId)
    (howner : x.owner < s'.nextId) (hext : x.ext = q.2) (hq : q.1 = none)
    (hfree : s.files q = none) (hnew : ∀ p, s.files p ≠ some x) : Kept s' := by
  have hcase := files_add hfiles
  refine ⟨?_, ?_, ?_, ?_, ?_, ?_, ?_, ?_⟩
  · intro p f hf
    rcases (hcase p f).mp hf with ⟨rfl, rfl⟩ | ⟨-, hf⟩
    · exact hext
    · exact h.ext p f hf
  · intro p p' f hf hg
    rcases (hcase p f).mp hf with ⟨rfl, rfl⟩ | ⟨-, hf⟩
    · rcases (hcase p' _).mp hg with ⟨rfl, -⟩ | ⟨-, hg⟩
      · rfl
      · exact absurd hg (hnew p')
    · rcases (hcase p' f).mp hg with ⟨rfl, rfl⟩ | ⟨-, hg⟩
      · exact absurd hf (hnew p)
      · exact h.once p p' f hf hg
  · intro f
    rw [hknown, List.mem_append, h.known f, List.mem_singleton]
    constructor
    · rintro (⟨p, hp⟩ | rfl)
      · refine ⟨p, (hcase p f).mpr (Or.inr ⟨?_, hp⟩)⟩
        rintro rfl
        rw [hfree] at hp
        cases hp
      · exact ⟨q, (hcase q f).mpr (Or.inl ⟨rfl, rfl⟩)⟩
    · rintro ⟨p, hp⟩
      rcases (hcase p f).mp hp with ⟨-, rfl⟩ | ⟨-, hp⟩
      · exact Or.inr rfl
      · exact Or.inl ⟨p, hp⟩
  · intro p f hf
    rcases (hcase p f).mp hf with ⟨-, rfl⟩ | ⟨-, hf⟩
    · exact howner
    · exact (h.old p f hf).trans_le hnext
  · intro d e f hf
    rw [hdirs]
    rcases (hcase _ f).mp hf with ⟨rfl, -⟩ | ⟨-, hf⟩
    · cases hq
    · exact h.homed d e f hf
  · rw [hdirs]
    exact h.nodup
  · rw [hdirs, hclock]
    exact h.past
  · rw [hdirs]
    exact h.apart

theorem place_inv (h : Inv s) (hs : step s .place = some s') : Inv s' := by
  simp only [step] at hs
  split_ifs at hs with hstart
  obtain ⟨hidle, hswept, hinbox⟩ := hstart
  have hpc := h.pc
  rw [hidle] at hpc
  obtain ⟨hstill, hclean⟩ := hpc hswept
  have hs := Option.some.inj hs
  have hfiles : s'.files = Function.update s.files inbox (some ⟨s.nextId, none⟩) := by rw [← hs]
  have hdirs : s'.dirs = s.dirs := by rw [← hs]
  have hbegan : s'.began = s.began := by rw [← hs]
  have hknown : s'.known = s.known ++ [⟨s.nextId, none⟩] := by rw [← hs]
  have hcase := files_add hfiles
  have hk : Kept s' := by
    refine h.kept.add hfiles hknown hdirs (by rw [← hs]) (by rw [← hs]; exact Nat.le_succ _)
      (by rw [← hs]; exact Nat.lt_succ_self _) rfl rfl hinbox ?_
    exact fun p hp => absurd (h.kept.old p _ hp) (lt_irrefl _)
  have hbeside : ∀ e, s'.files (beside e) = none := by
    intro e
    rw [hfiles, Function.update_of_ne (by nofun)]
    exact hclean hinbox e
  refine ⟨hk, ⟨?_, ?_, ?_, ?_, ?_⟩, ?_⟩
  · intro db e f _ hf
    rw [hbeside e] at hf
    cases hf
  · rw [hdirs]
    exact h.placed.one
  · intro d hd hm
    rw [hstill d (hdirs ▸ hd)] at hm
    cases hm
  · intro D db hdb p f hf howner
    rcases (hcase _ db).mp hdb with ⟨hD, rfl⟩ | ⟨-, hdb⟩
    · obtain ⟨rfl, -⟩ := Prod.mk.inj hD
      rcases (hcase p f).mp hf with ⟨rfl, -⟩ | ⟨-, hf⟩
      · exact Or.inl rfl
      · exact absurd howner (h.kept.old p f hf).ne
    · rcases (hcase p f).mp hf with ⟨-, rfl⟩ | ⟨-, hf⟩
      · exact absurd howner.symm (h.kept.old _ db hdb).ne
      · exact h.placed.together D db hdb p f hf howner
  · rw [hbegan, hknown]
    exact fun b hb => List.mem_append_left _ (h.placed.began b hb)
  · rw [show s'.pc = .idle by rw [← hs]; exact hidle]
    refine fun _ => ⟨?_, fun _ => hbeside⟩
    rw [hdirs]
    exact hstill

theorem write_inv {e : Ext} (h : Inv s) (hs : step s (.write e) = some s') : Inv s' := by
  simp only [step] at hs
  split at hs
  · next db hdb =>
    split_ifs at hs with hstart
    obtain ⟨hidle, hfree⟩ := hstart
    have hs := Option.some.inj hs
    have hfiles : s'.files = Function.update s.files (beside e) (some ⟨db.owner, some e⟩) := by
      rw [← hs]
    have hdirs : s'.dirs = s.dirs := by rw [← hs]
    have hbegan : s'.began = s.began := by rw [← hs]
    have hknown : s'.known = s.known ++ [⟨db.owner, some e⟩] := by rw [← hs]
    have hcase := files_add hfiles
    -- the sidecars of the database are beside it, so there is no other of this name
    have hnew : ∀ p, s.files p ≠ some ⟨db.owner, some e⟩ := by
      intro p hp
      have hdir : p.1 = none := by
        rcases h.placed.together none db hdb p _ hp rfl with hnone | ⟨hnone, -⟩
        · exact hnone
        · exact hnone
      have hpe : p = beside e := Prod.ext hdir (h.kept.ext p _ hp).symm
      rw [hpe, hfree] at hp
      cases hp
    have hk : Kept s' :=
      h.kept.add hfiles hknown hdirs (by rw [← hs]) (by rw [← hs])
        (by rw [← hs]; exact h.kept.old inbox db hdb) rfl rfl hfree hnew
    have hinbox : s'.files inbox = some db := by
      rw [hfiles, Function.update_of_ne (by nofun)]
      exact hdb
    refine ⟨hk, ⟨?_, ?_, ?_, ?_, ?_⟩, ?_⟩
    · intro db' e' f hdb' hf
      rw [hinbox] at hdb'
      obtain rfl := Option.some.inj hdb'
      rcases (hcase _ f).mp hf with ⟨-, rfl⟩ | ⟨-, hf⟩
      · rfl
      · exact h.placed.top db e' f hdb hf
    · rw [hdirs]
      exact h.placed.one
    · intro d hd hm
      rcases h.placed.staged d (hdirs ▸ hd) hm with ⟨-, hempty⟩ | ⟨hnone, -⟩
      · refine Or.inl ⟨by rw [hinbox]; nofun, fun e' => ?_⟩
        rw [hfiles, Function.update_of_ne (by nofun)]
        exact hempty e'
      · rw [hdb] at hnone
        cases hnone
    · intro D db' hdb' p f hf howner
      rcases (hcase _ db').mp hdb' with ⟨hD, -⟩ | ⟨-, hdb'⟩
      · cases hD
      · rcases (hcase p f).mp hf with ⟨rfl, rfl⟩ | ⟨-, hf⟩
        · have hsame := h.kept.same hdb hdb' howner rfl
          exact Or.inl (Prod.mk.inj hsame).1
        · exact h.placed.together D db' hdb' p f hf howner
    · rw [hbegan, hknown]
      exact fun b hb => List.mem_append_left _ (h.placed.began b hb)
    · rw [show s'.pc = .idle by rw [← hs]; exact hidle]
      have hpc := h.pc
      rw [hidle] at hpc
      intro hswept
      have hswept : s.swept = true := by
        rw [← hs] at hswept
        exact hswept
      refine ⟨by rw [hdirs]; exact (hpc hswept).1, fun hnone => ?_⟩
      rw [hinbox] at hnone
      cases hnone
  · cases hs

theorem step_inv {a : Action} (h : Inv s) (hok : Ready s a) (hs : step s a = some s') :
    Inv s' := by
  cases a with
  | retire now tag => exact retire_inv h hok hs
  | sweep now entries =>
    simp only [step] at hs
    split_ifs at hs with hstart
    obtain ⟨hidle, hclock, hperm⟩ := hstart
    have hpast : ∀ d ∈ s.dirs, d.now < now := fun d hd => (h.kept.past d hd).trans_lt hclock
    obtain rfl := Option.some.inj hs
    refine ⟨⟨h.kept.ext, h.kept.once, h.kept.known, h.kept.old, h.kept.homed, h.kept.nodup,
      fun d hd => (hpast d hd).le, h.kept.apart⟩,
      ⟨h.placed.top, h.placed.one, h.placed.staged, h.placed.together, h.placed.began⟩,
      ⟨?_, ?_, ?_, hpast, rfl⟩, rfl⟩
    · exact fun d hd hm => hperm.mem_iff.mpr (List.mem_filter.mpr ⟨hd, hm⟩)
    · exact fun d hd => List.mem_filter.mp (hperm.mem_iff.mp hd)
    · exact hperm.nodup_iff.mpr (h.kept.nodup.filter _)
  | advance => exact advance_inv h hs
  | crash =>
    obtain rfl := Option.some.inj hs
    refine ⟨h.kept.goto _, h.placed.goto _, fun hswept => ?_⟩
    have hswept : s.swept = true := hswept
    have hpc := h.pc
    cases hp : s.pc <;> rw [hp] at hpc <;> simp only [PcOk] at hpc
    case idle => exact hpc hswept
    all_goals simp_all
  | place => exact place_inv h hs
  | write e => exact write_inv h hs

end Steps

/-- userData before the first retire or sweep: no directories, and beside inbox.db its own sidecars
only. -/
structure Start (s : State) : Prop where
  idle : s.pc = .idle
  unswept : s.swept = false
  nodirs : s.dirs = []
  none : ∀ d e, s.files (some d, e) = none
  own : ∀ e f, s.files (Option.none, e) = some f → f.ext = e ∧ f.owner < s.nextId
  beside : ∀ db e f, s.files inbox = some db → s.files (SqliteFiles.beside e) = some f →
    f.owner = db.owner
  known : ∀ f, f ∈ s.known ↔ ∃ p, s.files p = some f
  began : s.began = []

theorem Start.inv {s : State} (h : Start s) : Inv s := by
  have htop : ∀ p f, s.files p = some f → p.1 = Option.none := by
    rintro ⟨_ | d, e⟩ f hf
    · rfl
    · rw [h.none] at hf
      cases hf
  have hext : ∀ p f, s.files p = some f → f.ext = p.2 ∧ f.owner < s.nextId := by
    rintro ⟨D, e⟩ f hf
    obtain rfl : D = Option.none := htop _ f hf
    exact h.own e f hf
  refine ⟨⟨fun p f hf => (hext p f hf).1, ?_, h.known, fun p f hf => (hext p f hf).2, ?_, ?_, ?_,
    ?_⟩,
    ⟨h.beside, ?_, ?_, ?_, ?_⟩, ?_⟩
  · intro p q f hf hg
    exact Prod.ext ((htop p f hf).trans (htop q f hg).symm)
      ((hext p f hf).1.symm.trans (hext q f hg).1)
  · intro d e f hf
    rw [h.none] at hf
    cases hf
  · rw [h.nodirs]
    exact List.nodup_nil
  · rw [h.nodirs]
    nofun
  · rw [h.nodirs]
    nofun
  · rw [h.nodirs]
    nofun
  · rw [h.nodirs]
    nofun
  · intro D db hdb p f hf _
    exact Or.inl ((htop p f hf).trans (htop _ db hdb).symm)
  · rw [h.began]
    nofun
  · rw [h.idle]
    intro hswept
    rw [h.unswept] at hswept
    cases hswept

/-- In every run in which each retire starts with no interrupted one left behind: a sidecar beside
inbox.db belongs to it; every file there has been has exactly one name; and at a completed sweep
every database whose retirement began is in one directory with all its sidecars. -/
theorem sidecars_follow (s₀ : State) (h₀ : Start s₀) (as : List Action) (s : State)
    (hrun : run step s₀ as = some s) (hok : Along step Ready s₀ as) :
    (∀ db e f, s.files inbox = some db → s.files (beside e) = some f → f.owner = db.owner) ∧
    (∀ f ∈ s.known, ∃! p, s.files p = some f) ∧
    (s.swept = true → s.pc = .idle → ∀ b ∈ s.began, ∃ D, s.files (D, none) = some ⟨b, none⟩ ∧
      ∀ p f, s.files p = some f → f.owner = b → p.1 = D) := by
  have hinv : Inv s :=
    run_invariant_along (fun _ _ _ h hok hs => step_inv h hok hs) h₀.inv hrun hok
  refine ⟨hinv.placed.top, ?_, ?_⟩
  · intro f hf
    obtain ⟨p, hp⟩ := (hinv.kept.known f).mp hf
    exact ⟨p, hp, fun q hq => hinv.kept.once q p f hq hp⟩
  · intro hswept hidle b hb
    have hpc := hinv.pc
    rw [hidle] at hpc
    have hstill := (hpc hswept).1
    obtain ⟨⟨D, e⟩, hp⟩ := (hinv.kept.known _).mp (hinv.placed.began b hb)
    obtain rfl : none = e := hinv.kept.ext _ _ hp
    refine ⟨D, hp, fun p f hf howner => ?_⟩
    rcases hinv.placed.together D _ hp p f hf howner with hsame | ⟨-, d, rfl, hm⟩
    · exact hsame
    · rw [hstill d (hinv.kept.homed d none _ hp)] at hm
      cases hm

/-- inbox.db with a -wal. -/
def withWal : State where
  dirs := []
  files p := if p = inbox then some ⟨0, none⟩ else if p = beside .wal then some ⟨0, some .wal⟩ else
    none
  clock := 0
  nextId := 1
  known := [⟨0, none⟩, ⟨0, some .wal⟩]

theorem start_withWal : Start withWal := by
  refine ⟨rfl, rfl, rfl, fun _ _ => rfl, ?_, ?_, ?_, rfl⟩
  · intro e f hf
    rcases e with _ | e
    · obtain rfl := Option.some.inj hf
      exact ⟨rfl, Nat.zero_lt_one⟩
    · cases e
      · obtain rfl := Option.some.inj hf
        exact ⟨rfl, Nat.zero_lt_one⟩
      · cases hf
      · cases hf
  · intro db e f hdb hf
    obtain rfl := Option.some.inj hdb
    cases e
    · obtain rfl := Option.some.inj hf
      rfl
    · cases hf
    · cases hf
  · intro f
    simp only [withWal, List.mem_cons, List.not_mem_nil, or_false]
    constructor
    · rintro (rfl | rfl)
      · exact ⟨inbox, by simp⟩
      · exact ⟨beside .wal, by simp [beside, inbox]⟩
    · rintro ⟨p, hp⟩
      split_ifs at hp
      · exact Or.inl (Option.some.inj hp).symm
      · exact Or.inr (Option.some.inj hp).symm

/-- A retire that crashes once the database has moved, and the sweep that completes it. -/
def crashedRetire : List Action :=
  ([.retire 1 "migrated", .advance, .crash, .sweep 2 [⟨"migrated", 1, true⟩]] : List Action) ++
    (List.replicate 7 .advance : List Action)

theorem sidecars_follow_crashedRetire :
    ((run step withWal crashedRetire).any fun s => s.swept && s.began = [0]) = true ∧
    ∀ s, run step withWal crashedRetire = some s → s.swept = true → s.pc = .idle →
      ∀ b ∈ s.began, ∃ D, s.files (D, none) = some ⟨b, none⟩ ∧
        ∀ p f, s.files p = some f → f.owner = b → p.1 = D :=
  ⟨by decide +kernel, fun s hrun =>
    (sidecars_follow withWal start_withWal crashedRetire s hrun (by decide +kernel)).2.2⟩

/-- A retire that crashes before the database has moved leaves an empty staging directory, and a
second one crashes after it has. -/
def crashedTwice : List Action :=
  ([.retire 1 "migrated", .crash, .retire 2 "migrated", .advance, .crash,
      .sweep 3 [⟨"migrated", 1, true⟩, ⟨"migrated", 2, true⟩]] : List Action) ++
    (List.replicate 13 .advance : List Action)

/-- The sweep puts the -wal into the empty directory, away from its database. -/
theorem sidecar_strays :
    ∃ s, run step withWal crashedTwice = some s ∧ s.swept = true ∧ s.pc = .idle ∧ 0 ∈ s.began ∧
      ¬ ∃ D, s.files (D, none) = some ⟨0, none⟩ ∧
        ∀ p f, s.files p = some f → f.owner = 0 → p.1 = D := by
  have hany : ((run step withWal crashedTwice).any fun s =>
      decide (s.swept = true ∧ s.pc = .idle ∧ 0 ∈ s.began ∧
        s.files (some ⟨"migrated", 2, false⟩, none) = some ⟨0, none⟩ ∧
        s.files (some ⟨"migrated", 1, false⟩, some .wal) = some ⟨0, some .wal⟩)) = true := by
    decide +kernel
  obtain ⟨s, hs, h⟩ := (Option.any_eq_true _ _).mp hany
  obtain ⟨hswept, hidle, hbegan, hdb, hwal⟩ := of_decide_eq_true h
  refine ⟨s, hs, hswept, hidle, hbegan, ?_⟩
  rintro ⟨D, -, hall⟩
  have h₁ := hall _ _ hdb rfl
  have h₂ := hall _ _ hwal rfl
  rw [← h₂] at h₁
  exact absurd h₁ (by decide)

end ClaudeFleet.SqliteFiles
