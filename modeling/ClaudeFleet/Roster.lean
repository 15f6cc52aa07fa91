import ClaudeFleet.Control
import ClaudeFleet.Table

/-! The committee roster: the experts a manager sees. A roster entry and a permitted verb are decided
by two functions over the same manifests. -/
namespace ClaudeFleet.Control

variable {R : Type}

def grantsOf (m : Option (WorkspaceSpec R)) : List ControlGrant :=
  ((m.bind fun c => c.control).map ControlConfig.canControl).getD []

def acceptFrom (m : WorkspaceSpec R) : List String :=
  (m.accessibility.map AccessibilityConfig.acceptFrom).getD []

/-- `decideRoster`: whether the target is listed to the caller, or why not. -/
def decideRoster (caller target : Option (WorkspaceSpec R)) (callerId targetId : String) :
    Except String Unit :=
  if callerId = targetId then .error "self"
  else match caller, target with
    | none, _ => .error s!"unknown caller workspace: {callerId}"
    | some _, none => .error s!"unknown target workspace: {targetId}"
    | some c, some t =>
      if c.kind ≠ .container then .error "caller is a local workspace"
      else if t.kind ≠ .container then .error "target is a local workspace"
      else if isManager t then .error s!"target {targetId} is a manager"
      else if !isReachable t then .error s!"target {targetId} is not reachable"
      else if acceptFrom t ≠ [] then
        if callerId ∉ acceptFrom t then
          .error s!"target {targetId} does not advertise to caller {callerId}"
        else .ok ()
      else if (grantsOf (some c)).any fun g => g.id = targetId ∧ g.verbs ≠ [] then .ok ()
      else
        .error
          s!"target {targetId} has open acceptFrom but caller {callerId} holds no grant"

structure RosterStatus where
  paused : Bool
  busy : Bool
  stalled : Bool
  lastActiveAt : Option ℤ

structure RosterGrant where
  controllable : Bool
  verbs : List CommitteeVerb

structure RosterEntry where
  id : String
  name : String
  description : Option String
  labels : List String
  roleHint : Option String
  installedLoadouts : List (String × String)
  status : RosterStatus
  grant : RosterGrant

def rosterTitleMax : ℕ := 120

/-- The first `n` UTF-16 units; the half of a pair that a cut leaves prints as U+FFFD. -/
def sliceUnits : ℕ → List Char → List Char
  | 0, _ => []
  | _ + 1, [] => []
  | n + 1, c :: cs =>
    if c.toNat < 0x10000 then c :: sliceUnits n cs
    else if n = 0 then [Char.ofNat 0xfffd]
    else c :: sliceUnits (n - 1) cs

section
-- the description and the labels are among the fields that only an edit sets
variable (description : R → Option String) (labels : R → List String)
  (status : String → RosterStatus)

def rosterEntry (caller : Option (WorkspaceSpec R)) (t : WorkspaceSpec R) : RosterEntry :=
  let grant := (grantsOf caller).find? fun g => g.id = t.id
  { id := t.id
    name := t.name
    description := description t.rest
    labels := labels t.rest
    roleHint := t.accessibility.bind AccessibilityConfig.roleHint
    installedLoadouts := t.installedLoadouts.map fun l =>
      (l.id, String.ofList (sliceUnits rosterTitleMax l.title.toList))
    status := status t.id
    grant :=
      { controllable := grant.any fun g => g.verbs ≠ []
        verbs := (grant.map ControlGrant.verbs).getD [] } }

def buildRoster (caller : Option (WorkspaceSpec R)) (callerId : String)
    (candidates : List (WorkspaceSpec R)) : List RosterEntry :=
  (candidates.filter fun t => decideRoster caller (some t) callerId t.id matches .ok _).map
    (rosterEntry description labels status caller)

end

/-- What control and the roster both ask of the two manifests, whatever the grant. -/
structure Admissible (caller target : WorkspaceSpec R) (callerId targetId : String) : Prop where
  distinct : callerId ≠ targetId
  callerContainer : caller.kind = .container
  targetContainer : target.kind = .container
  expert : isManager target = false
  reachable : isReachable target = true
  accepted : acceptFrom target = [] ∨ callerId ∈ acceptFrom target

theorem any_acceptFrom (t : WorkspaceSpec R) (callerId : String) :
    (t.accessibility.any fun a => a.acceptFrom ≠ [] ∧ callerId ∉ a.acceptFrom) = true ↔
      acceptFrom t ≠ [] ∧ callerId ∉ acceptFrom t := by
  cases h : t.accessibility with
  | none => simp [acceptFrom, h]
  | some a => simp [acceptFrom, h]

theorem holdsVerb_iff (m : WorkspaceSpec R) (targetId : String) (verb : CommitteeVerb) :
    holdsVerb m targetId verb = true ↔
      ∃ g, (grantsOf (some m)).find? (fun g => g.id = targetId) = some g ∧ verb ∈ g.verbs := by
  cases h : m.control with
  | none => simp [holdsVerb, grantsOf, h]
  | some c => simp [holdsVerb, grantsOf, h, Option.any_eq_true]

theorem isManager_of_grant {m : WorkspaceSpec R} {p : ControlGrant → Bool} {g : ControlGrant}
    (h : (grantsOf (some m)).find? p = some g) : isManager m = true := by
  have hmem := List.mem_of_find?_eq_some h
  cases hc : m.control with
  | none => simp [grantsOf, hc] at hmem
  | some c =>
    simp only [grantsOf, Option.bind_some, hc, Option.map_some, Option.getD_some] at hmem
    simpa [isManager, hc] using List.length_pos_of_mem hmem

theorem decideControl_iff (c t : WorkspaceSpec R) (callerId targetId : String)
    (verb : CommitteeVerb) :
    decideControl (some c) (some t) callerId targetId verb = .ok () ↔
      Admissible c t callerId targetId ∧ holdsVerb c targetId verb = true := by
  simp only [decideControl, any_acceptFrom]
  constructor
  · intro h
    split_ifs at h with h₁ h₂ h₃ h₄ h₅ h₆ h₇
    refine ⟨⟨h₁, not_not.mp h₂, not_not.mp h₃, by simpa using h₄, by simpa using h₅, ?_⟩,
      by simpa using h₇⟩
    by_cases hnil : acceptFrom t = []
    · exact Or.inl hnil
    · exact Or.inr (by simpa [hnil] using h₆)
  · rintro ⟨h, hverb⟩
    have hacc : ¬(acceptFrom t ≠ [] ∧ callerId ∉ acceptFrom t) := by
      rintro ⟨hne, hnot⟩
      exact h.accepted.elim hne hnot
    simp [h.distinct, h.callerContainer, h.targetContainer, h.expert, h.reachable, hacc, hverb]

theorem decideRoster_iff (c t : WorkspaceSpec R) (callerId targetId : String) :
    decideRoster (some c) (some t) callerId targetId = .ok () ↔
      Admissible c t callerId targetId ∧
        (acceptFrom t = [] → ∃ g ∈ grantsOf (some c), g.id = targetId ∧ g.verbs ≠ []) := by
  simp only [decideRoster]
  constructor
  · intro h
    split_ifs at h with h₁ h₂ h₃ h₄ h₅ h₆ h₇ h₇
    · exact ⟨⟨h₁, not_not.mp h₂, not_not.mp h₃, by simpa using h₄, by simpa using h₅,
        Or.inr h₇⟩, fun hnil => absurd hnil h₆⟩
    · exact ⟨⟨h₁, not_not.mp h₂, not_not.mp h₃, by simpa using h₄, by simpa using h₅,
        Or.inl (not_not.mp h₆)⟩, fun _ => by simpa using h₇⟩
  · rintro ⟨h, hgrant⟩
    by_cases hnil : acceptFrom t = []
    · simpa [h.distinct, h.callerContainer, h.targetContainer, h.expert, h.reachable, hnil]
        using hgrant hnil
    · have hmem := h.accepted.resolve_left hnil
      simp [h.distinct, h.callerContainer, h.targetContainer, h.expert, h.reachable, hnil, hmem]

/-- A verb is held through a grant that is not empty, so a permit implies a place in the roster. -/
theorem grant_of_holdsVerb {c : WorkspaceSpec R} {targetId : String} {verb : CommitteeVerb}
    (h : holdsVerb c targetId verb = true) :
    ∃ g ∈ grantsOf (some c), g.id = targetId ∧ g.verbs ≠ [] := by
  obtain ⟨g, hfind, hverb⟩ := (holdsVerb_iff c targetId verb).mp h
  exact ⟨g, List.mem_of_find?_eq_some hfind, by simpa using List.find?_some hfind,
    List.ne_nil_of_mem hverb⟩

section
variable (description : R → Option String) (labels : R → List String)
  (status : String → RosterStatus)

theorem mem_rosterEntry_verbs (c t : WorkspaceSpec R) (verb : CommitteeVerb) :
    verb ∈ (rosterEntry description labels status (some c) t).grant.verbs ↔
      holdsVerb c t.id verb = true := by
  rw [holdsVerb_iff]
  cases h : (grantsOf (some c)).find? fun g => g.id = t.id with
  | none => simp [rosterEntry, h]
  | some g => simp [rosterEntry, h]

theorem mem_buildRoster {caller : Option (WorkspaceSpec R)} {callerId : String}
    {candidates : List (WorkspaceSpec R)} {e : RosterEntry} :
    e ∈ buildRoster description labels status caller callerId candidates ↔
      ∃ t ∈ candidates, decideRoster caller (some t) callerId t.id = .ok () ∧
        rosterEntry description labels status caller t = e := by
  simp only [buildRoster, List.mem_map, List.mem_filter, and_assoc]
  refine exists_congr fun t => and_congr_right fun _ => and_congr_left fun _ => ?_
  cases decideRoster caller (some t) callerId t.id with
  | error e => simp
  | ok u => simp

theorem control_iff_roster (fleet : Table (WorkspaceSpec.id (R := R)))
    (callerId targetId : String) (verb : CommitteeVerb) :
    decideControl (fleet.get callerId) (fleet.get targetId) callerId targetId verb = .ok () ↔
      ∃ e ∈ buildRoster description labels status (fleet.get callerId) callerId fleet.rows,
        e.id = targetId ∧ verb ∈ e.grant.verbs := by
  cases hc : fleet.get callerId with
  | none =>
    -- an unknown caller is permitted nothing and sees nobody
    have hcontrol : decideControl none (fleet.get targetId) callerId targetId verb ≠ .ok () := by
      simp only [decideControl]
      split_ifs <;> simp
    have hroster : ∀ t : WorkspaceSpec R,
        decideRoster none (some t) callerId t.id ≠ .ok () := by
      intro t
      simp only [decideRoster]
      split_ifs <;> simp
    simp [hcontrol, mem_buildRoster, hroster]
  | some c =>
    constructor
    · intro h
      cases ht : fleet.get targetId with
      | none =>
        rw [ht] at h
        simp only [decideControl] at h
        split_ifs at h
      | some t =>
        obtain ⟨hmem, rfl⟩ := Table.get_eq_some.mp ht
        rw [ht] at h
        obtain ⟨hadm, hverb⟩ := (decideControl_iff c t callerId t.id verb).mp h
        have hlisted : decideRoster (some c) (some t) callerId t.id = .ok () :=
          (decideRoster_iff c t callerId t.id).mpr ⟨hadm, fun _ => grant_of_holdsVerb hverb⟩
        exact ⟨_, (mem_buildRoster description labels status).mpr ⟨t, hmem, hlisted, rfl⟩, rfl,
          (mem_rosterEntry_verbs description labels status c t verb).mpr hverb⟩
    · rintro ⟨e, he, rfl, hverb⟩
      obtain ⟨t, hmem, hlisted, rfl⟩ := (mem_buildRoster description labels status).mp he
      have ht : fleet.get t.id = some t := Table.get_eq_some.mpr ⟨hmem, rfl⟩
      have hadm := ((decideRoster_iff c t callerId t.id).mp hlisted).1
      change decideControl (some c) (fleet.get t.id) callerId t.id verb = .ok ()
      rw [ht]
      exact (decideControl_iff c t callerId t.id verb).mpr
        ⟨hadm, (mem_rosterEntry_verbs description labels status c t verb).mp hverb⟩

/-- A controller holds a grant and is a manager, and no manager is under control. -/
theorem no_control_chain (a b c : Option (WorkspaceSpec R)) (i j k : String)
    (v w : CommitteeVerb) (hab : decideControl a b i j v = .ok ()) :
    decideControl b c j k w ≠ .ok () := by
  intro hbc
  cases a with
  | none =>
    simp only [decideControl] at hab
    split_ifs at hab
  | some a =>
    cases b with
    | none =>
      simp only [decideControl] at hab
      split_ifs at hab
    | some b =>
      cases c with
      | none =>
        simp only [decideControl] at hbc
        split_ifs at hbc
      | some c =>
        have hexpert := ((decideControl_iff a b i j v).mp hab).1.expert
        have hverb := ((decideControl_iff b c j k w).mp hbc).2
        obtain ⟨g, hfind, -⟩ := (holdsVerb_iff b k w).mp hverb
        rw [isManager_of_grant hfind] at hexpert
        cases hexpert

/-- The two decisions agree, and nobody is both a controller and under control. -/
theorem roster_control_agree (fleet : Table (WorkspaceSpec.id (R := R))) :
    (∀ callerId targetId verb,
      decideControl (fleet.get callerId) (fleet.get targetId) callerId targetId verb = .ok () ↔
        ∃ e ∈ buildRoster description labels status (fleet.get callerId) callerId fleet.rows,
          e.id = targetId ∧ verb ∈ e.grant.verbs) ∧
    ¬∃ a b c v w,
      decideControl (fleet.get a) (fleet.get b) a b v = .ok () ∧
        decideControl (fleet.get b) (fleet.get c) b c w = .ok () := by
  refine ⟨fun callerId targetId verb =>
    control_iff_roster description labels status fleet callerId targetId verb, ?_⟩
  rintro ⟨a, b, c, v, w, hab, hbc⟩
  exact no_control_chain _ _ _ a b c v w hab hbc

end

end ClaudeFleet.Control
