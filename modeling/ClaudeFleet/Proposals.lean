import Mathlib.Tactic
import ClaudeFleet.Table
import ClaudeFleet.Transition
import ClaudeFleet.Automations

/-! Proposals of automation changes. A proposing call supersedes the caller's older proposals,
applies what a trusted workspace may change itself and stores the rest for the user; a deciding
call reads its proposal, applies items and saves the whole row back. Every store call is one step,
and calls interleave freely but for the claim of a proposal by its one decision. -/
namespace ClaudeFleet.Proposals
open Transition Automations

inductive Kind
  | new
  | change
  | batch
  | captureSettings
  deriving DecidableEq

inductive Status
  | pending
  | approved
  | partly
  | rejected
  | superseded
  | autoApproved
  deriving DecidableEq

inductive Decision
  | pending
  | accepted
  | declined
  | autoApplied
  | reverted
  deriving DecidableEq

structure Item where
  automationId : Option String
  name : String
  baseVersion : Option ℕ
  before : Option AutomationDef
  after : AutomationDef
  lowRisk : Bool
  decision : Decision := .pending
  deriving DecidableEq

structure Proposal where
  id : ℕ
  kind : Kind
  proposer : String
  status : Status
  items : List Item
  note : Option String := none
  /-- The change of a `captureSettings` proposal, as its column holds it. -/
  captureSettings : Option String := none
  deriving DecidableEq

def statusOf (items : List Item) : Status :=
  if items.any (·.decision == .pending) then .pending
  else if items.all (·.decision == .declined) then .rejected
  else if items.all (fun i => i.decision == .autoApplied || i.decision == .reverted) then
    .autoApproved
  else if items.all fun i =>
      i.decision == .accepted || i.decision == .autoApplied || i.decision == .reverted then
    .approved
  else .partly

/-- Where the application of an item stands: its first store call, or the guarded update. -/
inductive ApplyPc
  | first
  | update
  deriving DecidableEq

inductive ProposePc
  | byName (d : AutomationDef)
  | reading (kind : Kind) (todo : List (String × Option AutomationDef)) (byName : Bool)
      (items : List Item)
  | pending (kind : Kind) (items : List Item)
  | marking (kind : Kind) (items : List Item) (rest : List Proposal)
  | trusted (kind : Kind) (items : List Item)
  | applying (kind : Kind) (done rest : List Item) (pc : ApplyPc)
  | creating (kind : Kind) (items : List Item)
  | capturePending (change : String)
  | captureMarking (change : String) (rest : List Proposal)
  | captureCreating (change : String)
  deriving DecidableEq

/-- What an approval takes: the accepted indexes, all by default, and an edited definition. -/
structure ApproveOptions where
  accept : Option (List ℕ) := none
  edited : Option (ℕ × Option AutomationDef) := none
  deriving DecidableEq

inductive DecidePc
  | approveGet (opts : ApproveOptions)
  | captureApply (p : Proposal)
  | applying (p : Proposal) (accept : Option (List ℕ)) (done rest : List Item) (failed : Bool)
      (pc : ApplyPc)
  | saving (p : Proposal)
  | rejectGet (note : Option String)
  | revertGet (index : ℕ)
  | revertRow (p : Proposal) (index : ℕ)
  | revertUpdate (p : Proposal) (index : ℕ) (version : ℕ)
  deriving DecidableEq

inductive Event
  /-- What a row holds from here on. -/
  | saved (id : ℕ) (status : Status) (items : List Item)
  /-- An item of a proposal was applied: the row it replaced, if there was one, and the new
  definition. -/
  | applied (id index : ℕ) (auto : Bool) (expected : Option ℕ)
      (replaced : Option AutomationRecord) (after : AutomationDef)
  | reverted (id index : ℕ) (expected : Option ℕ) (replaced : AutomationRecord)
  deriving DecidableEq

structure State where
  automations : Automations.Rows
  proposals : Table Proposal.id := Table.empty
  /-- The proposing calls under way, each with its caller; the number of a call is the id of the
  proposal it stores. -/
  proposing : ℕ → Option (String × ProposePc) := fun _ => none
  /-- The proposals with a decision in progress. -/
  deciding : ℕ → Option DecidePc := fun _ => none
  calls : ℕ := 0
  usedIds : List String := []
  log : List Event := []

/-- What a step learns from outside: the id and time of a new row, whether the workspace is
trusted, whether the capture settings were applied. -/
structure Answer where
  freshId : String := ""
  now : ℤ := 0
  trusted : Bool := false
  applied : Bool := true
  deriving DecidableEq

inductive Action
  | propose (caller : String) (d : AutomationDef)
  | proposeChange (caller : String) (batch : List (String × Option AutomationDef))
  | proposeCaptureSettings (caller : String) (change : String)
  | approve (id : ℕ) (opts : ApproveOptions)
  | reject (id : ℕ) (note : Option String)
  | revert (id : ℕ) (index : ℕ)
  | proposeStep (call : ℕ) (ans : Answer)
  | decideStep (id : ℕ) (ans : Answer)
  /-- The user's own edit or removal of an automation. -/
  | edit (id : String) (d : AutomationDef)
  | remove (id : String)

def MAX_BATCH : ℕ := 20

variable (classifyChange : Option AutomationDef → AutomationDef → Bool)

def State.record (s : State) (e : Event) : State := { s with log := s.log ++ [e] }

def State.goPropose (s : State) (n : ℕ) (o : Option (String × ProposePc)) : State :=
  { s with proposing := Function.update s.proposing n o }

def State.goDecide (s : State) (id : ℕ) (o : Option DecidePc) : State :=
  { s with deciding := Function.update s.deciding id o }

def State.spawn (s : State) (caller : String) (pc : ProposePc) : State :=
  { s.goPropose s.calls (some (caller, pc)) with calls := s.calls + 1 }

/-- `save`: the status, the items and the note of the row. -/
def saveRow (T : Table Proposal.id) (p : Proposal) : Table Proposal.id :=
  T.updateWhere (·.id == p.id)
    (fun r => { r with status := p.status, items := p.items, note := p.note }) fun _ => rfl

def State.save (s : State) (p : Proposal) : State :=
  ({ s with proposals := saveRow s.proposals p } : State).record (.saved p.id p.status p.items)

def State.insert (s : State) (p : Proposal) : State :=
  ({ s with proposals := s.proposals.insertIgnore p } : State).record
    (.saved p.id p.status p.items)

def pendingRows (s : State) : List Proposal :=
  s.proposals.rows.filter (·.status == .pending)

def newItem (before : Option AutomationRecord) (after : AutomationDef) : Item where
  automationId := before.map (·.id)
  name := after.name
  baseVersion := before.map (·.version)
  before := before.map (·.definition)
  after := after
  lowRisk := classifyChange (before.map (·.definition)) after

/-- The names and automations of a proposal's items. -/
def subjects (items : List Item) : List String :=
  items.flatMap fun i => i.name :: i.automationId.toList

def overlaps (names : List String) (p : Proposal) : Bool :=
  p.items.any fun i => i.name ∈ names || i.automationId.any (· ∈ names)

/-! The application of one item. -/

inductive Applied
  | failed
  /-- The row has the base version; the update comes next. -/
  | ready
  | done (T : Automations.Rows) (it : Item) (e : Event) (freshId : Option String)

def applyItem (T : Automations.Rows) (id index : ℕ) (it : Item) (decision : Decision)
    (ans : Answer) : ApplyPc → Applied
  | .first =>
    match it.automationId with
    | none =>
      match Automations.create T ans.freshId it.after ans.now with
      | none => .failed
      | some U => .done U { it with automationId := some ans.freshId, decision := decision }
          (.applied id index (decision == .autoApplied) none none it.after) (some ans.freshId)
    | some aid =>
      match T.get aid with
      | none => .failed
      | some cur => if some cur.version = it.baseVersion then .ready else .failed
  | .update =>
    match it.automationId with
    | none => .failed
    | some aid =>
      match Automations.update T aid it.after it.baseVersion with
      | none => .failed
      | some U => .done U { it with decision := decision }
          (.applied id index (decision == .autoApplied) it.baseVersion (T.get aid) it.after) none

def State.commit (s : State) (T : Automations.Rows) (e : Event) (freshId : Option String) :
    State :=
  ({ s with automations := T, usedIds := freshId.toList ++ s.usedIds } : State).record e

/-! The proposing calls. -/

/-- The head of the items a trusted workspace may apply itself. -/
def stepAuto (s : State) (n : ℕ) (caller : String) (kind : Kind) (done : List Item) (it : Item)
    (rest : List Item) (pc : ApplyPc) (ans : Answer) : State :=
  let next := fun (s : State) (it : Item) =>
    s.goPropose n (some (caller, .applying kind (done ++ [it]) rest .first))
  if !it.lowRisk || it.automationId.isNone then next s it
  else
    match applyItem s.automations n done.length it .autoApplied ans pc with
    | .failed => next s it
    | .ready => s.goPropose n (some (caller, .applying kind done (it :: rest) .update))
    | .done T it e freshId => next (s.commit T e freshId) it

/-- One item of a change: the automation by its id, else by its name. -/
def stepReading (s : State) (n : ℕ) (caller : String) (kind : Kind) (key : String)
    (d : Option AutomationDef) (todo : List (String × Option AutomationDef)) (byName : Bool)
    (items : List Item) : State :=
  match if byName then Automations.byName s.automations key else s.automations.get key, d with
  | some cur, some d =>
    s.goPropose n (some (caller, .reading kind todo false
      (items ++ [newItem classifyChange (some cur) d])))
  | some _, none => s.goPropose n none
  | none, _ =>
    if byName then s.goPropose n none
    else s.goPropose n (some (caller, .reading kind ((key, d) :: todo) true items))

def stepPropose (s : State) (n : ℕ) (caller : String) (ans : Answer) : ProposePc → State
  | .byName d =>
    if (Automations.byName s.automations d.name).isSome then s.goPropose n none
    else s.goPropose n (some (caller, .pending .new [newItem classifyChange none d]))
  | .reading kind [] _ items => s.goPropose n (some (caller, .pending kind items))
  | .reading kind ((key, d) :: todo) byName items =>
    stepReading classifyChange s n caller kind key d todo byName items
  | .pending kind items =>
    s.goPropose n (some (caller, .marking kind items (pendingRows s)))
  | .marking kind items [] => s.goPropose n (some (caller, .trusted kind items))
  | .marking kind items (p :: rest) =>
    let next := fun s : State => s.goPropose n (some (caller, .marking kind items rest))
    if p.proposer = caller ∧ overlaps (subjects items) p = true then
      next (s.save { p with status := .superseded })
    else next s
  | .trusted kind items =>
    if ans.trusted then s.goPropose n (some (caller, .applying kind [] items .first))
    else s.goPropose n (some (caller, .creating kind items))
  | .applying kind done [] _ => s.goPropose n (some (caller, .creating kind done))
  | .applying kind done (it :: rest) pc => stepAuto s n caller kind done it rest pc ans
  | .creating kind items =>
    (s.insert ⟨n, kind, caller, statusOf items, items, none, none⟩).goPropose n none
  | .capturePending change =>
    s.goPropose n (some (caller, .captureMarking change (pendingRows s)))
  | .captureMarking change [] => s.goPropose n (some (caller, .captureCreating change))
  | .captureMarking change (p :: rest) =>
    let next := fun s : State => s.goPropose n (some (caller, .captureMarking change rest))
    if p.kind = .captureSettings ∧ p.proposer = caller then
      next (s.save { p with status := .superseded })
    else next s
  | .captureCreating change =>
    (s.insert ⟨n, .captureSettings, caller, .pending, [], none, some change⟩).goPropose n none

/-! The deciding calls. -/

/-- The edited definition, for the item it is meant for; nothing when the call throws. -/
def editItems (items : List Item) : Option (ℕ × Option AutomationDef) → Option (List Item)
  | none => some items
  | some (index, d) =>
    match items[index]?, d with
    | some it, some d => some (items.set index { it with after := d, name := d.name })
    | _, _ => none

/-- `approve` once it has its row. -/
def beginApprove (p : Proposal) (opts : ApproveOptions) : Option DecidePc :=
  if p.status ≠ .pending then none
  else if p.kind = .captureSettings then p.captureSettings.map fun _ => .captureApply p
  else
    (editItems p.items opts.edited).map fun items =>
      .applying { p with items := items } opts.accept [] items false .first

/-- The head of the items under approval. -/
def stepApprove (s : State) (id : ℕ) (p : Proposal) (accept : Option (List ℕ))
    (done : List Item) (it : Item) (rest : List Item) (failed : Bool) (pc : ApplyPc)
    (ans : Answer) : State :=
  let next := fun (s : State) (it : Item) (failed : Bool) =>
    s.goDecide id (some (.applying p accept (done ++ [it]) rest failed .first))
  if it.decision ≠ .pending then next s it failed
  else if accept.any (done.length ∉ ·) then next s { it with decision := .declined } failed
  else
    match applyItem s.automations id done.length it .accepted ans pc with
    | .failed => next s it true
    | .ready => s.goDecide id (some (.applying p accept done (it :: rest) failed .update))
    | .done T it e freshId => next (s.commit T e freshId) it failed

/-- `reject` once it has its row. -/
def rejected (p : Proposal) (note : Option String) : Proposal :=
  let items := p.items.map fun it =>
    if it.decision = .pending then { it with decision := .declined } else it
  { p with items := items, status := statusOf items, note := note }

def revertable (it : Item) : Bool :=
  (it.decision == .autoApplied || it.decision == .accepted) && it.before.isSome &&
    it.automationId.isSome

def stepDecide (s : State) (id : ℕ) (ans : Answer) : DecidePc → State
  | .approveGet opts => s.goDecide id ((s.proposals.get id).bind (beginApprove · opts))
  | .captureApply p =>
    if ans.applied then s.goDecide id (some (.saving { p with status := .approved }))
    else s.goDecide id none
  | .applying p _ done [] failed _ =>
    -- with an error the row keeps its status and the call throws after the save
    s.goDecide id (some (.saving
      { p with items := done, status := if failed then p.status else statusOf done }))
  | .applying p accept done (it :: rest) failed pc =>
    stepApprove s id p accept done it rest failed pc ans
  | .saving p => (s.save p).goDecide id none
  | .rejectGet note =>
    s.goDecide id ((s.proposals.get id).bind fun p =>
      if p.status = .pending then some (.saving (rejected p note)) else none)
  | .revertGet index =>
    s.goDecide id ((s.proposals.get id).bind fun p =>
      (p.items[index]?).bind fun it =>
        if revertable it then some (.revertRow p index) else none)
  | .revertRow p index =>
    s.goDecide id (((p.items[index]?).bind fun it =>
      it.automationId.bind fun aid => s.automations.get aid).map fun cur =>
        .revertUpdate p index cur.version)
  | .revertUpdate p index version =>
    match p.items[index]? with
    | none => s.goDecide id none
    | some it =>
      match it.automationId, it.before with
      | some aid, some d =>
        match s.automations.get aid, Automations.update s.automations aid d (some version) with
        | some cur, some T =>
          (s.commit T (.reverted id index (some version) cur) none).goDecide id
            (some (.saving
              { p with items := p.items.set index { it with decision := .reverted } }))
        | _, _ => s.goDecide id none
      | _, _ => s.goDecide id none

def State.claim (s : State) (id : ℕ) (pc : DecidePc) : State :=
  if (s.deciding id).isSome then s else s.goDecide id (some pc)

def step (s : State) : Action → Option State
  | .propose caller d => some (s.spawn caller (.byName d))
  | .proposeChange caller batch =>
    if batch = [] ∨ MAX_BATCH < batch.length then some s
    else
      some (s.spawn caller (.reading (if 1 < batch.length then .batch else .change) batch false []))
  | .proposeCaptureSettings caller change => some (s.spawn caller (.capturePending change))
  | .approve id opts => some (s.claim id (.approveGet opts))
  | .reject id note => some (s.claim id (.rejectGet note))
  | .revert id index => some (s.claim id (.revertGet index))
  | .proposeStep n ans =>
    (s.proposing n).map fun c => stepPropose classifyChange s n c.1 ans c.2
  | .decideStep id ans =>
    -- a new row's id was never used before
    if ans.freshId ∈ s.usedIds then none else (s.deciding id).map (stepDecide s id ans)
  | .edit id d =>
    some (match Automations.update s.automations id d none with
      | none => s
      | some T => { s with automations := T })
  | .remove id => some { s with automations := Automations.remove s.automations id }

end ClaudeFleet.Proposals
