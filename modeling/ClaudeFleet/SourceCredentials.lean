import Mathlib.Tactic
import ClaudeFleet.Transition

/-! The credential of one loadout source. A call stores its token under the lock, validates it with
the network outside the lock, and puts back what it found when that fails. Every locked section is
one step. -/
namespace ClaudeFleet.LoadoutSources
open Transition

structure Credential where
  token : String
  username : Option String
  deriving DecidableEq

/-- What a source's credential looked like before a store. -/
structure Snapshot where
  token : Option String
  entry : Option (Option String)
  deriving DecidableEq

inductive CallKind
  | addSource
  | setSourceCredential
  deriving DecidableEq

inductive Phase
  /-- Before its first locked section. -/
  | queued
  /-- The source is not in the list: nothing was stored. -/
  | refused
  | validating
  | passed
  | failed
  | finished
  | rolledBack
  deriving DecidableEq

structure Call where
  kind : CallKind
  cred : Credential
  phase : Phase := .queued
  snap : Snapshot := ⟨none, none⟩
  /-- The call whose credential this one replaced. -/
  replaced : Option ℕ := none
  deriving DecidableEq

inductive Event
  | stored (n : ℕ)
  | removed
  deriving DecidableEq

/-- `vault` and `entry` are what the vault and the credentials of sources.json hold for the base.
The log has the latest event first. -/
structure State where
  vault : Option String
  entry : Option (Option String)
  listed : Bool
  calls : List Call := []
  log : List Event := []
  deriving DecidableEq

/-- The calls that stored since the source was last removed. -/
def since : List Event → List ℕ
  | [] => []
  | .removed :: _ => []
  | .stored n :: log => n :: since log

/-- The call has not been rolled back. -/
def State.stands (s : State) (n : ℕ) : Bool := (s.calls[n]?).any fun c => c.phase ≠ .rolledBack

def State.standing (s : State) : List ℕ := (since s.log).filter s.stands

inductive Action
  | call (kind : CallKind) (cred : Credential)
  /-- `storeCredentialLocked` -/
  | store (n : ℕ)
  /-- The pull of the index ends. -/
  | validated (n : ℕ) (ok : Bool)
  /-- `restoreCredential` -/
  | rollback (n : ℕ)
  /-- A call whose pull succeeded puts the source in the list. -/
  | finish (n : ℕ)
  | removeSource

def storeCredentialLocked (s : State) (n : ℕ) (c : Call) : State :=
  { s with
    vault := some c.cred.token
    entry := some c.cred.username
    calls := s.calls.set n
      { c with phase := .validating, snap := ⟨s.vault, s.entry⟩, replaced := s.standing.head? }
    log := .stored n :: s.log }

def restoreCredential (s : State) (n : ℕ) (c : Call) : State :=
  let s := { s with calls := s.calls.set n { c with phase := .rolledBack } }
  if s.vault ≠ some c.cred.token then s
  else { s with vault := c.snap.token, entry := c.snap.entry }

def step (s : State) : Action → Option State
  | .call kind cred =>
    some { s with calls := s.calls ++ [⟨kind, cred, .queued, ⟨none, none⟩, none⟩] }
  | .store n =>
    match s.calls[n]? with
    | some c =>
      if c.phase ≠ .queued then none
      else if c.kind = .setSourceCredential ∧ s.listed = false then
        some { s with calls := s.calls.set n { c with phase := .refused } }
      else some (storeCredentialLocked s n c)
    | none => none
  | .validated n ok =>
    match s.calls[n]? with
    | some c =>
      if c.phase ≠ .validating then none
      else
        some { s with calls := s.calls.set n { c with phase := if ok then .passed else .failed } }
    | none => none
  | .rollback n =>
    match s.calls[n]? with
    | some c => if c.phase ≠ .failed then none else some (restoreCredential s n c)
    | none => none
  | .finish n =>
    match s.calls[n]? with
    | some c =>
      if c.phase ≠ .passed then none
      else
        some { s with
          listed := s.listed || c.kind = .addSource
          calls := s.calls.set n { c with phase := .finished } }
    | none => none
  | .removeSource =>
    some { s with vault := none, entry := none, listed := false, log := .removed :: s.log }

/-- A source with this credential, and no call yet. -/
def start (init : Option Credential) (listed : Bool) : State where
  vault := init.map Credential.token
  entry := init.map Credential.username
  listed := listed

def Call.ended (c : Call) : Bool := c.phase ∈ [Phase.refused, .finished, .rolledBack]

def Call.succeeded (c : Call) : Bool := c.phase = .finished

/-- What the source should be left with: the credential of the last call that stored one and passed,
unless the source was removed after it. -/
def expected (init : Option Credential) (calls : List Call) : List Event → Option Credential
  | [] => init
  | .removed :: _ => none
  | .stored n :: log =>
    match calls[n]? with
    | some c => if c.succeeded then some c.cred else expected init calls log
    | none => expected init calls log

/-- The vault and sources.json hold this credential, or none. -/
def Holds (s : State) (cred : Option Credential) : Prop :=
  s.vault = cred.map Credential.token ∧ s.entry = cred.map Credential.username

/-- A failed call that finds its token in the vault is the last that stored and was not rolled back,
and so is still there the call whose credential it replaced. -/
def Undoable (s : State) : Action → Prop
  | .rollback n => ∀ c ∈ s.calls[n]?, s.vault = some c.cred.token →
      s.standing.head? = some n ∧ ∀ d ∈ c.replaced, d ∈ s.standing
  | _ => True

instance (s : State) (a : Action) : Decidable (Undoable s a) :=
  match a with
  | .rollback _ => inferInstanceAs (Decidable (∀ c ∈ _, _ → _))
  | .call .. | .store _ | .validated .. | .finish _ | .removeSource => isTrue trivial

/-! What each call knows of the others. -/

def State.credOf (s : State) (n : ℕ) : Option Credential := (s.calls[n]?).map Call.cred

/-- What was there before the calls of `since`. -/
def base (init : Option Credential) : List Event → Option Credential
  | [] => init
  | .removed :: _ => none
  | .stored _ :: log => base init log

/-- The credential of the last standing call. -/
def State.current (init : Option Credential) (s : State) : Option Credential :=
  match s.standing.head? with
  | some n => s.credOf n
  | none => base init s.log

def Snapshot.of (v : Option Credential) : Snapshot :=
  ⟨v.map Credential.token, v.map Credential.username⟩

/-- The snapshot is the credential of the call it replaced; and that call, while it stands, is the
last before this one that does. -/
structure Replaces (init : Option Credential) (s : State) (before : List ℕ) (c : Call) : Prop where
  snap : c.snap = Snapshot.of (c.replaced.elim (base init s.log) s.credOf)
  mem : ∀ d, c.replaced = some d → d ∈ before
  first : c.replaced = none → before.filter s.stands = []
  last : ∀ d, c.replaced = some d → s.stands d = true → (before.filter s.stands).head? = some d

structure Sound (init : Option Credential) (s : State) : Prop where
  nodup : (since s.log).Nodup
  stored : ∀ n ∈ since s.log, ∃ c, s.calls[n]? = some c ∧ c.phase ≠ .queued ∧ c.phase ≠ .refused
  holds : Holds s (s.current init)
  replaces : ∀ later n before c, since s.log = later ++ n :: before → s.calls[n]? = some c →
    Replaces init s before c

/-- A call moves on, and stands as before. -/
structure Moves (s t : State) : Prop where
  vault : t.vault = s.vault
  entry : t.entry = s.entry
  log : t.log = s.log
  calls : ∀ n ∈ since s.log, ∀ c, s.calls[n]? = some c →
    ∃ c', t.calls[n]? = some c' ∧ c'.cred = c.cred ∧ c'.snap = c.snap ∧ c'.replaced = c.replaced ∧
      (c'.phase = .rolledBack ↔ c.phase = .rolledBack) ∧ c'.phase ≠ .queued ∧ c'.phase ≠ .refused

theorem filter_stands_congr {s t : State} {l : List ℕ} (h : ∀ n ∈ l, t.stands n = s.stands n) :
    l.filter t.stands = l.filter s.stands := List.filter_congr h

theorem Sound.moves {init : Option Credential} {s t : State} (h : Sound init s) (hm : Moves s t) :
    Sound init t := by
  have hcred : ∀ n ∈ since s.log, t.credOf n = s.credOf n := by
    intro n hn
    obtain ⟨c, hc, -⟩ := h.stored n hn
    obtain ⟨c', hc', hcred, -⟩ := hm.calls n hn c hc
    simp [State.credOf, hc, hc', hcred]
  have hstands : ∀ n ∈ since s.log, t.stands n = s.stands n := by
    intro n hn
    obtain ⟨c, hc, -⟩ := h.stored n hn
    obtain ⟨c', hc', -, -, -, hphase, -⟩ := hm.calls n hn c hc
    simp [State.stands, hc, hc', hphase]
  have hstanding : t.standing = s.standing := by
    rw [State.standing, State.standing, hm.log]
    exact filter_stands_congr hstands
  have hcurrent : t.current init = s.current init := by
    rw [State.current, State.current, hstanding, hm.log]
    cases hhead : s.standing.head? with
    | none => rfl
    | some n =>
      have hmem : n ∈ s.standing := List.mem_of_head? hhead
      exact hcred n (List.mem_filter.mp hmem).1
  refine ⟨hm.log ▸ h.nodup, ?_, ?_, ?_⟩
  · intro n hn
    rw [hm.log] at hn
    obtain ⟨c, hc, -⟩ := h.stored n hn
    obtain ⟨c', hc', -, -, -, -, hq, hr⟩ := hm.calls n hn c hc
    exact ⟨c', hc', hq, hr⟩
  · rw [Holds, hcurrent, hm.vault, hm.entry]
    exact h.holds
  · intro later n before c' hsplit hc'
    rw [hm.log] at hsplit
    have hsub : ∀ m ∈ before, m ∈ since s.log := by
      intro m hmem
      rw [hsplit]
      simp [hmem]
    have hn : n ∈ since s.log := by
      rw [hsplit]
      simp
    obtain ⟨c, hc, -⟩ := h.stored n hn
    obtain ⟨c'', hc'', -, hsnap, hrep, -⟩ := hm.calls n hn c hc
    obtain rfl : c'' = c' := Option.some.inj (hc''.symm.trans hc')
    have hR := h.replaces later n before c hsplit hc
    have hfilter := filter_stands_congr fun m hmem => hstands m (hsub m hmem)
    refine ⟨?_, hrep ▸ hR.mem, ?_, ?_⟩
    · rw [hsnap, hrep, hR.snap, hm.log]
      cases hd : c.replaced with
      | none => rfl
      | some d => exact congrArg Snapshot.of (hcred d (hsub d (hR.mem d hd))).symm
    · rw [hrep, hfilter]
      exact hR.first
    · intro d hd hst
      rw [hrep] at hd
      rw [hstands d (hsub d (hR.mem d hd))] at hst
      rw [hfilter]
      exact hR.last d hd hst

theorem getElem?_set_self' {l : List Call} {n : ℕ} {c c' : Call} (h : l[n]? = some c) :
    (l.set n c')[n]? = some c' := by
  obtain ⟨hlt, -⟩ := List.getElem?_eq_some_iff.mp h
  simp [hlt]

/-- The steps that only move a call on. -/
theorem moves_set {s t : State} {n : ℕ} {c c' : Call} (hc : s.calls[n]? = some c)
    (hvault : t.vault = s.vault) (hentry : t.entry = s.entry) (hlog : t.log = s.log)
    (hcalls : t.calls = s.calls.set n c')
    (hcred : c'.cred = c.cred ∧ c'.snap = c.snap ∧ c'.replaced = c.replaced)
    (hphase : n ∈ since s.log → (c'.phase = .rolledBack ↔ c.phase = .rolledBack) ∧
      c'.phase ≠ .queued ∧ c'.phase ≠ .refused)
    (hstored : ∀ n ∈ since s.log, ∃ c, s.calls[n]? = some c ∧
      c.phase ≠ .queued ∧ c.phase ≠ .refused) : Moves s t := by
  refine ⟨hvault, hentry, hlog, fun m hm d hd => ?_⟩
  rw [hcalls]
  by_cases hmn : n = m
  · subst hmn
    obtain rfl : c = d := Option.some.inj (hc.symm.trans hd)
    exact ⟨c', getElem?_set_self' hc, hcred.1, hcred.2.1, hcred.2.2, (hphase hm).1, (hphase hm).2⟩
  · obtain ⟨d', hd', hq, hr⟩ := hstored m hm
    obtain rfl : d' = d := Option.some.inj (hd'.symm.trans hd)
    exact ⟨d', by rw [List.getElem?_set_ne hmn]; exact hd, rfl, rfl, rfl, Iff.rfl, hq, hr⟩

/-- A store: what it found is the credential of the last standing call, and it is the last now. -/
theorem Sound.store {init : Option Credential} {s : State} {n : ℕ} {c : Call} (h : Sound init s)
    (hc : s.calls[n]? = some c) (hq : c.phase = .queued) :
    Sound init (storeCredentialLocked s n c) := by
  have hnew : n ∉ since s.log := by
    intro hmem
    obtain ⟨c', hc', hne, -⟩ := h.stored n hmem
    obtain rfl : c' = c := Option.some.inj (hc'.symm.trans hc)
    exact hne hq
  have hself : (storeCredentialLocked s n c).calls[n]? = some
      { c with phase := .validating, snap := ⟨s.vault, s.entry⟩, replaced := s.standing.head? } :=
    getElem?_set_self' hc
  have hother : ∀ m ∈ since s.log, (storeCredentialLocked s n c).calls[m]? = s.calls[m]? := by
    intro m hm
    have hne : n ≠ m := fun heq => hnew (heq ▸ hm)
    exact List.getElem?_set_ne hne
  have hstands : ∀ m ∈ since s.log, (storeCredentialLocked s n c).stands m = s.stands m := by
    intro m hm
    simp only [State.stands, hother m hm]
  have hcred : ∀ m ∈ since s.log, (storeCredentialLocked s n c).credOf m = s.credOf m := by
    intro m hm
    simp only [State.credOf, hother m hm]
  have hself' : (storeCredentialLocked s n c).stands n = true := by
    simp only [State.stands, hself]
    rfl
  have hhead : (storeCredentialLocked s n c).standing.head? = some n := by
    simp only [State.standing, storeCredentialLocked, since]
    exact congrArg List.head? (List.filter_cons_of_pos hself')
  refine ⟨List.nodup_cons.mpr ⟨hnew, h.nodup⟩, ?_, ?_, ?_⟩
  · intro m hm
    rcases List.mem_cons.mp hm with rfl | hm
    · exact ⟨_, hself, by simp, by simp⟩
    · rw [hother m hm]
      exact h.stored m hm
  · rw [State.current, hhead]
    simp only [State.credOf, hself]
    exact ⟨rfl, rfl⟩
  · intro later m before c' hsplit hc'
    have hsplit : n :: since s.log = later ++ m :: before := hsplit
    cases later with
    | nil =>
      -- the call itself
      obtain ⟨rfl, rfl⟩ := List.cons.inj hsplit
      obtain rfl := Option.some.inj (hself.symm.trans hc')
      have hfilter := filter_stands_congr hstands
      refine ⟨?_, ?_, ?_, ?_⟩
      · have hsnap : (⟨s.vault, s.entry⟩ : Snapshot) = Snapshot.of (s.current init) := by
          rw [Snapshot.of, ← h.holds.1, ← h.holds.2]
        refine hsnap.trans (congrArg Snapshot.of ?_)
        rw [State.current]
        cases hd : s.standing.head? with
        | none => rfl
        | some d =>
          exact (hcred d (List.mem_filter.mp (List.mem_of_head? hd)).1).symm
      · intro d hd
        exact (List.mem_filter.mp (List.mem_of_head? hd)).1
      · intro hnone
        rw [hfilter]
        exact List.head?_eq_none_iff.mp hnone
      · intro d hd _
        rw [hfilter]
        exact hd
    | cons x later =>
      obtain ⟨-, hrest⟩ := List.cons.inj hsplit
      have hsub : ∀ d ∈ before, d ∈ since s.log := by
        intro d hd
        rw [hrest]
        simp [hd]
      have hm : m ∈ since s.log := by
        rw [hrest]
        simp
      rw [hother m hm] at hc'
      have hR := h.replaces later m before c' hrest hc'
      have hfilter := filter_stands_congr fun d hd => hstands d (hsub d hd)
      refine ⟨?_, hR.mem, ?_, ?_⟩
      · rw [hR.snap]
        cases hd : c'.replaced with
        | none => rfl
        | some d => exact congrArg Snapshot.of (hcred d (hsub d (hR.mem d hd))).symm
      · rw [hfilter]
        exact hR.first
      · intro d hd hst
        rw [hstands d (hsub d (hR.mem d hd))] at hst
        rw [hfilter]
        exact hR.last d hd hst

/-! Rolling back. -/

theorem head?_filter_ne {l : List ℕ} {n d : ℕ} (hd : l.head? = some d) (hne : d ≠ n) :
    (l.filter fun m => decide (m ≠ n)).head? = some d := by
  cases l with
  | nil => cases hd
  | cons x l =>
    obtain rfl := Option.some.inj hd
    rw [List.filter_cons_of_pos (by simpa using hne)]
    rfl

/-- After a rollback the same calls stand but for the one that was rolled back. -/
structure Undone (s t : State) (n : ℕ) : Prop where
  log : t.log = s.log
  stands : ∀ m, t.stands m = (s.stands m && decide (m ≠ n))
  credOf : ∀ m, t.credOf m = s.credOf m
  calls : ∀ (m : ℕ) (c' : Call), t.calls[m]? = some c' →
    ∃ c : Call, s.calls[m]? = some c ∧ c'.snap = c.snap ∧ c'.replaced = c.replaced

theorem Undone.filter {s t : State} {n : ℕ} (h : Undone s t n) (l : List ℕ) :
    l.filter t.stands = (l.filter s.stands).filter fun m => decide (m ≠ n) := by
  rw [List.filter_filter]
  refine List.filter_congr fun m _ => ?_
  rw [h.stands m, Bool.and_comm]

theorem Undone.replaces {init : Option Credential} {s t : State} {n : ℕ} (h : Undone s t n)
    {before : List ℕ} {c c' : Call} (hR : Replaces init s before c) (hsnap : c'.snap = c.snap)
    (hrep : c'.replaced = c.replaced) : Replaces init t before c' := by
  refine ⟨?_, hrep ▸ hR.mem, ?_, ?_⟩
  · rw [hsnap, hrep, hR.snap, h.log]
    cases c.replaced with
    | none => rfl
    | some d => exact congrArg Snapshot.of (h.credOf d).symm
  · intro hnone
    rw [h.filter, hR.first (hrep ▸ hnone)]
    rfl
  · intro d hd hst
    rw [h.stands d, Bool.and_eq_true, decide_eq_true_eq] at hst
    rw [h.filter]
    exact head?_filter_ne (hR.last d (hrep ▸ hd) hst.1) hst.2

theorem undone_set {s t : State} {n : ℕ} {c : Call} (hc : s.calls[n]? = some c)
    (hlog : t.log = s.log) (hcalls : t.calls = s.calls.set n { c with phase := .rolledBack }) :
    Undone s t n := by
  have hself : t.calls[n]? = some { c with phase := .rolledBack } := by
    rw [hcalls]
    exact getElem?_set_self' hc
  have hother : ∀ m, m ≠ n → t.calls[m]? = s.calls[m]? := by
    intro m hm
    rw [hcalls]
    exact List.getElem?_set_ne hm.symm
  refine ⟨hlog, fun m => ?_, fun m => ?_, fun m c' hc' => ?_⟩
  · by_cases hm : m = n
    · subst hm
      simp [State.stands, hself]
    · simp [State.stands, hother m hm, hm]
  · by_cases hm : m = n
    · subst hm
      simp [State.credOf, hself, hc]
    · simp [State.credOf, hother m hm]
  · by_cases hm : m = n
    · subst hm
      obtain rfl := Option.some.inj (hself.symm.trans hc')
      exact ⟨c, hc, rfl, rfl⟩
    · rw [hother m hm] at hc'
      exact ⟨c', hc', rfl, rfl⟩

/-- The token in the vault is not the call's: another call stands after it, or none of its calls. -/
theorem current_of_ne {init : Option Credential} {s t : State} {n : ℕ} (h : Undone s t n)
    (hne : s.standing.head? ≠ some n) : t.current init = s.current init := by
  have hfilter : t.standing = s.standing.filter fun m => decide (m ≠ n) := by
    rw [State.standing, h.log, h.filter]
    rfl
  rw [State.current, State.current, h.log]
  cases hhead : s.standing.head? with
  | none =>
    have hnil := List.head?_eq_none_iff.mp hhead
    rw [hfilter, hnil]
    rfl
  | some d =>
    have hd : d ≠ n := fun heq => hne (heq ▸ hhead)
    rw [hfilter, head?_filter_ne hhead hd]
    exact h.credOf d

/-- The last standing call goes, and the one it replaced is the last again. -/
theorem current_of_last {init : Option Credential} {s t : State} {n : ℕ} {c : Call}
    (hsound : Sound init s) (h : Undone s t n) (hc : s.calls[n]? = some c)
    (hlast : s.standing.head? = some n) (hrep : ∀ d ∈ c.replaced, d ∈ s.standing) :
    t.current init = c.replaced.elim (base init s.log) s.credOf := by
  obtain ⟨later, before, hsplit, hlater⟩ :
      ∃ later before, since s.log = later ++ n :: before ∧ later.filter s.stands = [] := by
    rw [State.standing, List.head?_filter, List.find?_eq_some_iff_append] at hlast
    obtain ⟨-, later, before, hsplit, hnone⟩ := hlast
    refine ⟨later, before, hsplit, List.filter_eq_nil_iff.mpr fun m hm => ?_⟩
    simpa using hnone m hm
  have hnot : n ∉ before := by
    have hnodup := hsound.nodup
    rw [hsplit] at hnodup
    exact (List.nodup_cons.mp (List.nodup_append.mp hnodup).2.1).1
  have hR := hsound.replaces later n before c hsplit hc
  have hstanding : t.standing = before.filter s.stands := by
    rw [State.standing, h.log, hsplit, h.filter, List.filter_append, hlater, List.nil_append]
    have hself : (before.filter s.stands).filter (fun m => decide (m ≠ n)) =
        before.filter s.stands := by
      refine List.filter_eq_self.mpr fun m hm => ?_
      simpa using fun heq : m = n => hnot (heq ▸ (List.mem_filter.mp hm).1)
    rw [List.filter_cons]
    split_ifs
    · rw [List.filter_cons_of_neg (by simp), hself]
    · exact hself
  rw [State.current, hstanding]
  cases hd : c.replaced with
  | none =>
    rw [hR.first hd, h.log]
    rfl
  | some d =>
    have hst := (List.mem_filter.mp (hrep d hd)).2
    rw [hR.last d hd hst]
    exact h.credOf d

theorem Sound.rollback {init : Option Credential} {s : State} {n : ℕ} {c : Call} (h : Sound init s)
    (hc : s.calls[n]? = some c)
    (hok : s.vault = some c.cred.token →
      s.standing.head? = some n ∧ ∀ d ∈ c.replaced, d ∈ s.standing) :
    Sound init (restoreCredential s n c) := by
  have hcalls : (restoreCredential s n c).calls =
      s.calls.set n { c with phase := .rolledBack } := by
    simp only [restoreCredential]
    split_ifs <;> rfl
  have hlog : (restoreCredential s n c).log = s.log := by
    simp only [restoreCredential]
    split_ifs <;> rfl
  have hu := undone_set hc hlog hcalls
  refine ⟨hlog ▸ h.nodup, ?_, ?_, ?_⟩
  · intro m hm
    rw [hlog] at hm
    obtain ⟨d, hd, hq, hr⟩ := h.stored m hm
    rw [hcalls]
    by_cases hmn : n = m
    · subst hmn
      exact ⟨_, getElem?_set_self' hc, by simp, by simp⟩
    · rw [List.getElem?_set_ne hmn]
      exact ⟨d, hd, hq, hr⟩
  · by_cases hvault : s.vault = some c.cred.token
    · obtain ⟨hlast, hrep⟩ := hok hvault
      rw [current_of_last h hu hc hlast hrep]
      have hmem := List.mem_filter.mp (List.mem_of_head? hlast)
      obtain ⟨later, before, hsplit⟩ := List.append_of_mem hmem.1
      have hsnap := (h.replaces later n before c hsplit hc).snap
      have ht : (restoreCredential s n c).vault = c.snap.token ∧
          (restoreCredential s n c).entry = c.snap.entry := by
        simp [restoreCredential, hvault]
      rw [Holds, ht.1, ht.2, hsnap]
      exact ⟨rfl, rfl⟩
    · have hne : s.standing.head? ≠ some n := by
        intro hhead
        refine hvault ?_
        rw [h.holds.1, State.current, hhead]
        simp [State.credOf, hc]
      have ht : (restoreCredential s n c).vault = s.vault ∧
          (restoreCredential s n c).entry = s.entry := by
        simp [restoreCredential, hvault]
      rw [Holds, current_of_ne hu hne, ht.1, ht.2]
      exact h.holds
  · intro later m before c' hsplit hc'
    rw [hlog] at hsplit
    obtain ⟨d, hd, hsnap, hrep⟩ := hu.calls m c' hc'
    exact hu.replaces (h.replaces later m before d hsplit hd) hsnap hrep

/-! Runs. -/

theorem Sound.step {init : Option Credential} {s t : State} {a : Action} (h : Sound init s)
    (hok : Undoable s a) (hs : step s a = some t) : Sound init t := by
  cases a with
  | call kind cred =>
    obtain rfl := Option.some.inj hs
    refine h.moves ⟨rfl, rfl, rfl, fun n hn c hc => ?_⟩
    obtain ⟨c', hc', hq, hr⟩ := h.stored n hn
    obtain rfl : c' = c := Option.some.inj (hc'.symm.trans hc)
    obtain ⟨hlt, -⟩ := List.getElem?_eq_some_iff.mp hc
    exact ⟨c', by rw [List.getElem?_append_left hlt]; exact hc, rfl, rfl, rfl, Iff.rfl, hq, hr⟩
  | store n =>
    simp only [LoadoutSources.step] at hs
    split at hs
    · next c hc =>
      split_ifs at hs with hphase hlisted
      · obtain rfl := Option.some.inj hs
        have hq : c.phase = .queued := not_not.mp hphase
        refine h.moves (moves_set hc rfl rfl rfl rfl ⟨rfl, rfl, rfl⟩ (fun hmem => ?_) h.stored)
        obtain ⟨c', hc', hne, -⟩ := h.stored n hmem
        obtain rfl : c' = c := Option.some.inj (hc'.symm.trans hc)
        exact absurd hq hne
      · obtain rfl := Option.some.inj hs
        exact h.store hc (not_not.mp hphase)
    · cases hs
  | validated n ok =>
    simp only [LoadoutSources.step] at hs
    split at hs
    · next c hc =>
      split_ifs at hs with hphase hpass
      all_goals
        obtain rfl := Option.some.inj hs
        have hv : c.phase = .validating := not_not.mp hphase
        refine h.moves (moves_set hc rfl rfl rfl rfl ⟨rfl, rfl, rfl⟩ (fun _ => ?_) h.stored)
        simp [hv]
    · cases hs
  | rollback n =>
    simp only [LoadoutSources.step] at hs
    split at hs
    · next c hc =>
      split_ifs at hs with hphase
      obtain rfl := Option.some.inj hs
      exact h.rollback hc (hok c hc)
    · cases hs
  | finish n =>
    simp only [LoadoutSources.step] at hs
    split at hs
    · next c hc =>
      split_ifs at hs with hphase
      obtain rfl := Option.some.inj hs
      have hp : c.phase = .passed := not_not.mp hphase
      refine h.moves (moves_set hc rfl rfl rfl rfl ⟨rfl, rfl, rfl⟩ (fun _ => ?_) h.stored)
      simp [hp]
    · cases hs
  | removeSource =>
    obtain rfl := Option.some.inj hs
    refine ⟨List.nodup_nil, by simp [since], ⟨rfl, rfl⟩, ?_⟩
    intro later n before c hsplit
    simp [since] at hsplit

theorem sound_start (init : Option Credential) (listed : Bool) :
    Sound init (start init listed) := by
  refine ⟨List.nodup_nil, by simp [start, since], ⟨rfl, rfl⟩, ?_⟩
  intro later n before c hsplit
  simp [start, since] at hsplit

/-- Once no call is under way, the last standing call is the last that passed. -/
theorem current_eq_expected {init : Option Credential} {s : State}
    (hended : ∀ c ∈ s.calls, c.ended = true) (log : List Event)
    (hstored : ∀ n ∈ since log, ∃ c, s.calls[n]? = some c ∧
      c.phase ≠ .queued ∧ c.phase ≠ .refused) :
    (match ((since log).filter s.stands).head? with
      | some n => s.credOf n
      | none => base init log) = expected init s.calls log := by
  induction log with
  | nil => rfl
  | cons e log ih =>
    cases e with
    | removed => rfl
    | stored n =>
      obtain ⟨c, hc, -, hrefused⟩ := hstored n (by simp [since])
      have ih := ih fun m hm => hstored m (by simp [since, hm])
      have hend := hended c (List.mem_of_getElem? hc)
      simp only [Call.ended, List.mem_cons, List.not_mem_nil, or_false, decide_eq_true_eq] at hend
      rcases hend with hend | hend | hend
      · exact absurd hend hrefused
      · have hst : s.stands n = true := by simp [State.stands, hc, hend]
        simp [since, List.filter_cons_of_pos hst, expected, hc, Call.succeeded, hend, State.credOf]
      · have hst : ¬s.stands n = true := by simp [State.stands, hc, hend]
        simpa [since, List.filter_cons_of_neg hst, expected, hc, Call.succeeded, hend, base]
          using ih

/-- In a run in which every call that is rolled back may be, the source is left with the credential
of the last call that stored one and passed, or with what it had, or with none after a removal; and
the vault has a token just when sources.json has an entry. -/
theorem failed_credential_gone {init : Option Credential} {listed : Bool} {actions : List Action}
    {s : State} (hrun : run step (start init listed) actions = some s)
    (hok : Along step Undoable (start init listed) actions)
    (hended : ∀ c ∈ s.calls, c.ended = true) :
    Holds s (expected init s.calls s.log) ∧ (s.vault.isSome = true ↔ s.entry.isSome = true) := by
  have h : Sound init s :=
    run_invariant_along (fun _ _ _ h hok hs => h.step hok hs) (sound_start init listed) hrun hok
  have hcur : s.current init = expected init s.calls s.log :=
    current_eq_expected hended s.log h.stored
  have hholds := h.holds
  rw [hcur] at hholds
  refine ⟨hholds, ?_⟩
  rw [hholds.1, hholds.2, Option.isSome_map, Option.isSome_map]

def working : Credential := ⟨"working", none⟩

/-- Two replacements of a working credential are under way at once. -/
def twoReplacements : List Action :=
  [.call .setSourceCredential ⟨"bad-1", none⟩, .call .setSourceCredential ⟨"bad-2", some "bot"⟩,
    .store 0, .store 1, .validated 0 false, .validated 1 false]

/-- The later one is rolled back first. -/
def laterFirst : List Action := twoReplacements ++ [.rollback 1, .rollback 0]

theorem failed_credential_gone_laterFirst :
    ∃ s, run step (start (some working) true) laterFirst = some s ∧
      Holds s (expected (some working) s.calls s.log) ∧
      (s.vault.isSome = true ↔ s.entry.isSome = true) := by
  obtain ⟨s, hs⟩ : ∃ s, run step (start (some working) true) laterFirst = some s := ⟨_, rfl⟩
  have hok : Along step Undoable (start (some working) true) laterFirst := by decide +kernel
  have hended : ∀ c ∈ s.calls, c.ended = true := by
    obtain rfl := Option.some.inj hs
    decide +kernel
  exact ⟨s, hs, failed_credential_gone hs hok hended⟩

/-- The earlier one finds the other's token and leaves it, and the later one then puts back the
earlier one's, which was refused. -/
theorem refused_credential_stays :
    ∃ s, run step (start (some working) true) (twoReplacements ++ [.rollback 0, .rollback 1]) =
        some s ∧ (∀ c ∈ s.calls, c.ended = true) ∧
      ¬Holds s (expected (some working) s.calls s.log) ∧ s.vault = some "bad-1" := by
  refine ⟨_, rfl, by decide +kernel, fun h => ?_, rfl⟩
  have hvault : some "bad-1" = some "working" := h.1
  exact absurd hvault (by decide)

end ClaudeFleet.LoadoutSources
