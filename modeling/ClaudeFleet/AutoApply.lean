import Mathlib.Tactic
import ClaudeFleet.Classify
import ClaudeFleet.Proposals

/-! What a trusted workspace's proposal may apply by itself. The risk of an item is judged on the
definition that the proposing call read; other calls, approvals and the user write in between. -/
namespace ClaudeFleet.Proposals
open Transition Automations

/-- The automation had this definition at that version: a row of it has it still or is newer. -/
structure Known (s : State) (aid : String) (version : ℕ) (d : AutomationDef) : Prop where
  used : aid ∈ s.usedIds
  row : ∀ r, s.automations.get aid = some r →
    version < r.version ∨ r.version = version ∧ r.definition = d

section Automations

variable {classifyChange : Option AutomationDef → AutomationDef → Bool}
variable {s t : State} {aid : String} {version : ℕ} {d : AutomationDef}

theorem version_of_update {T U : Automations.Rows} {expected : Option ℕ}
    (h : Automations.update T aid d expected = some U) :
    ∃ r, T.get aid = some r ∧ ∀ v, expected = some v → r.version = v := by
  unfold Automations.update at h
  cases hr : T.get aid with
  | none =>
    rw [hr] at h
    cases h
  | some r =>
    rw [hr] at h
    dsimp only at h
    split_ifs at h with hversion
    refine ⟨r, rfl, fun v hv => ?_⟩
    subst hv
    simpa using hversion

/-- What may become of the automations: rows keep their ids, a row of an id in use is the one that
was there or a newer one, and new ids are noted. -/
structure Grown (s t : State) : Prop where
  used : ∀ id ∈ s.usedIds, id ∈ t.usedIds
  ids : (∀ id r, s.automations.get id = some r → id ∈ s.usedIds) →
    ∀ id r, t.automations.get id = some r → id ∈ t.usedIds
  rows : ∀ id ∈ s.usedIds, ∀ r, t.automations.get id = some r →
    ∃ r', s.automations.get id = some r' ∧ (r'.version < r.version ∨ r = r')

theorem Grown.same (hauto : t.automations = s.automations) (hused : t.usedIds = s.usedIds) :
    Grown s t where
  used id hid := hused ▸ hid
  ids h id r hr := by
    rw [hused]
    exact h id r (hauto ▸ hr)
  rows id _ r hr := ⟨r, hauto ▸ hr, .inr rfl⟩

theorem Grown.update {U : Automations.Rows} {expected : Option ℕ}
    (h : Automations.update s.automations aid d expected = some U) (hauto : t.automations = U)
    (hused : t.usedIds = s.usedIds) : Grown s t := by
  obtain ⟨old, hold, hget⟩ := update_some h
  refine ⟨fun id hid => hused ▸ hid, fun hids id r hr => ?_, fun id _ r hr => ?_⟩
  · rw [hauto, hget] at hr
    rw [hused]
    split_ifs at hr with hid
    · exact hid ▸ hids aid old hold
    · exact hids id r hr
  · rw [hauto, hget] at hr
    split_ifs at hr with hid
    · obtain rfl := Option.some.inj hr
      exact ⟨old, hid ▸ hold, .inl (Nat.lt_succ_self _)⟩
    · exact ⟨r, hr, .inr rfl⟩

theorem Grown.create {U : Automations.Rows} {now : ℤ}
    (h : Automations.create s.automations aid d now = some U) (hauto : t.automations = U)
    (hfresh : aid ∉ s.usedIds) (hused : t.usedIds = aid :: s.usedIds) : Grown s t := by
  unfold Automations.create at h
  split_ifs at h
  obtain rfl := Option.some.inj h
  have hget : ∀ id, id ≠ aid → t.automations.get id = s.automations.get id := by
    intro id hid
    rw [hauto, Table.get_insertIgnore, if_neg fun h => hid h.1]
  refine ⟨fun id hid => hused ▸ List.mem_cons_of_mem _ hid, fun hids id r hr => ?_,
    fun id hid r hr => ?_⟩
  · rw [hused]
    by_cases hid : id = aid
    · exact hid ▸ List.mem_cons_self
    · exact List.mem_cons_of_mem _ (hids id r (hget id hid ▸ hr))
  · have hne : id ≠ aid := by
      rintro rfl
      exact hfresh hid
    exact ⟨r, hget id hne ▸ hr, .inr rfl⟩

theorem Grown.remove (hauto : t.automations = Automations.remove s.automations aid)
    (hused : t.usedIds = s.usedIds) : Grown s t := by
  have hget : ∀ id r, t.automations.get id = some r → s.automations.get id = some r := by
    intro id r hr
    rw [hauto, Automations.remove, Table.get_deleteWhere] at hr
    exact (Option.filter_eq_some_iff.mp hr).1
  exact ⟨fun id hid => hused ▸ hid, fun hids id r hr => hused ▸ hids id r (hget id r hr),
    fun id _ r hr => ⟨r, hget id r hr, .inr rfl⟩⟩

theorem Known.grown (h : Known s aid version d) (hg : Grown s t) : Known t aid version d := by
  refine ⟨hg.used aid h.used, fun r hr => ?_⟩
  obtain ⟨r', hr', hlt | rfl⟩ := hg.rows aid h.used r hr
  · rcases h.row r' hr' with hv | ⟨rfl, -⟩
    · exact .inl (hv.trans hlt)
    · exact .inl hlt
  · exact h.row r hr'


theorem applyItem_done {T U : Automations.Rows} {id index : ℕ} {it it' : Item} {decision : Decision}
    {ans : Answer} {pc : ApplyPc} {e : Event} {fresh : Option String}
    (h : applyItem T id index it decision ans pc = .done U it' e fresh) :
    (it.automationId = none ∧ Automations.create T ans.freshId it.after ans.now = some U ∧
      fresh = some ans.freshId ∧
      e = .applied id index (decision == .autoApplied) none none it.after) ∨
    ∃ aid, it.automationId = some aid ∧
      Automations.update T aid it.after it.baseVersion = some U ∧ fresh = none ∧
      e = .applied id index (decision == .autoApplied) it.baseVersion (T.get aid) it.after := by
  cases pc with
  | first =>
    simp only [applyItem] at h
    cases haid : it.automationId with
    | none =>
      rw [haid] at h
      dsimp only at h
      split at h
      · cases h
      · next V hV =>
        cases h
        exact .inl ⟨rfl, hV, rfl, rfl⟩
    | some aid =>
      rw [haid] at h
      dsimp only at h
      split at h
      · cases h
      · split_ifs at h
  | update =>
    simp only [applyItem] at h
    cases haid : it.automationId with
    | none =>
      rw [haid] at h
      cases h
    | some aid =>
      rw [haid] at h
      dsimp only at h
      split at h
      · cases h
      · next V hV =>
        cases h
        exact .inr ⟨aid, rfl, hV, rfl, rfl⟩

theorem Grown.commit {U : Automations.Rows} {id index : ℕ} {it it' : Item} {decision : Decision}
    {ans : Answer} {pc : ApplyPc} {e : Event} {fresh : Option String}
    (h : applyItem s.automations id index it decision ans pc = .done U it' e fresh)
    (hfresh : it.automationId = none → ans.freshId ∉ s.usedIds)
    (hauto : t.automations = U) (hused : t.usedIds = fresh.toList ++ s.usedIds) : Grown s t := by
  rcases applyItem_done h with ⟨hnone, hcreate, rfl, -⟩ | ⟨aid, -, hupdate, rfl, -⟩
  · exact .create hcreate hauto (hfresh hnone) hused
  · exact .update hupdate hauto hused

end Automations

/-- The items of a call that it may still apply. -/
def ProposePc.items : ProposePc → List Item
  | .reading _ _ _ items => items
  | .pending _ items => items
  | .marking _ items _ => items
  | .trusted _ items => items
  | .applying _ _ rest _ => rest
  | _ => []

variable (classifyChange : Option AutomationDef → AutomationDef → Bool)

/-- The risk of the item was judged on what its automation was at its base version. -/
def Judged (s : State) (it : Item) : Prop :=
  ∀ aid, it.automationId = some aid → ∃ version d, it.baseVersion = some version ∧
    it.lowRisk = classifyChange (some d) it.after ∧ Known s aid version d

/-- An automatic application was judged low-risk against the row that it replaced. -/
def AutoSound (e : Event) : Prop :=
  ∀ id index expected replaced after, e = .applied id index true expected replaced after →
    ∃ r, replaced = some r ∧ expected = some r.version ∧
      classifyChange (some r.definition) after = true

structure Judging (s : State) : Prop where
  ids : ∀ id r, s.automations.get id = some r → id ∈ s.usedIds
  items : ∀ n c, s.proposing n = some c → ∀ it ∈ c.2.items, Judged classifyChange s it
  log : ∀ e ∈ s.log, AutoSound classifyChange e

section Judging

variable {classifyChange}
variable {s t : State} {n : ℕ} {caller : String} {pc : ProposePc} {act : Action}

theorem Judging.next (h : Judging classifyChange s) (hg : Grown s t)
    (hitems : ∀ n c, t.proposing n = some c → ∀ it ∈ c.2.items, Judged classifyChange s it)
    (hlog : ∀ e ∈ t.log, e ∈ s.log ∨ AutoSound classifyChange e) : Judging classifyChange t := by
  refine ⟨hg.ids h.ids, fun n c hc it hit aid haid => ?_, fun e he => ?_⟩
  · obtain ⟨version, d, hversion, hrisk, hknown⟩ := hitems n c hc it hit aid haid
    exact ⟨version, d, hversion, hrisk, hknown.grown hg⟩
  · exact (hlog e he).elim (h.log e) id

/-- A call goes on with items that are judged. -/
theorem judged_update (h : Judging classifyChange s) {o : Option (String × ProposePc)}
    (ho : ∀ c, o = some c → ∀ it ∈ c.2.items, Judged classifyChange s it) :
    ∀ m c, Function.update s.proposing n o m = some c →
      ∀ it ∈ c.2.items, Judged classifyChange s it := by
  intro m c hc
  by_cases hm : m = n
  · rw [hm, Function.update_self] at hc
    exact ho c hc
  · rw [Function.update_of_ne hm] at hc
    exact h.items m c hc

theorem Judging.goPropose (h : Judging classifyChange s) {o : Option (String × ProposePc)}
    (ho : ∀ c, o = some c → ∀ it ∈ c.2.items, Judged classifyChange s it) :
    Judging classifyChange (s.goPropose n o) :=
  h.next (.same rfl rfl) (judged_update h ho) fun _ he => .inl he

/-- A call goes on, with no more items than it had. -/
theorem Judging.goes (h : Judging classifyChange s) (hn : s.proposing n = some (caller, pc))
    {pc' : ProposePc} (hsub : ∀ it ∈ pc'.items, it ∈ pc.items) :
    Judging classifyChange (s.goPropose n (some (caller, pc'))) := by
  refine h.goPropose fun c hc it hit => ?_
  cases hc
  exact h.items n _ hn it (hsub it hit)

theorem Judging.save (h : Judging classifyChange s) (p : Proposal) :
    Judging classifyChange (s.save p) := by
  refine h.next (.same rfl rfl) h.items fun e he => ?_
  rcases List.mem_append.mp he with he | he
  · exact .inl he
  · rw [List.mem_singleton.mp he]
    exact .inr fun _ _ _ _ _ heq => by cases heq

theorem Judging.insert (h : Judging classifyChange s) (p : Proposal) :
    Judging classifyChange (s.insert p) := by
  refine h.next (.same rfl rfl) h.items fun e he => ?_
  rcases List.mem_append.mp he with he | he
  · exact .inl he
  · rw [List.mem_singleton.mp he]
    exact .inr fun _ _ _ _ _ heq => by cases heq

theorem Judging.judged_newItem (h : Judging classifyChange s) {before : Option AutomationRecord}
    (hbefore : ∀ cur ∈ before, s.automations.get cur.id = some cur) (d : AutomationDef) :
    Judged classifyChange s (newItem classifyChange before d) := by
  intro aid haid
  obtain ⟨cur, rfl, rfl⟩ := Option.map_eq_some_iff.mp haid
  have hcur := hbefore cur rfl
  refine ⟨cur.version, cur.definition, rfl, rfl, h.ids _ _ hcur, fun r hr => ?_⟩
  obtain rfl := Option.some.inj (hcur.symm.trans hr)
  exact .inr ⟨rfl, rfl⟩

theorem get_of_byName {T : Automations.Rows} {name : String} {cur : AutomationRecord}
    (h : Automations.byName T name = some cur) : T.get cur.id = some cur :=
  Table.get_eq_some.mpr ⟨List.mem_of_find?_eq_some h, rfl⟩

theorem Judging.stepReading (h : Judging classifyChange s) {kind : Kind} {key : String}
    {d : Option AutomationDef} {todo : List (String × Option AutomationDef)} {byName : Bool}
    {items : List Item} (hitems : ∀ it ∈ items, Judged classifyChange s it) :
    Judging classifyChange
      (stepReading classifyChange s n caller kind key d todo byName items) := by
  have hread : ∀ cur, (if byName then Automations.byName s.automations key
      else s.automations.get key) = some cur → s.automations.get cur.id = some cur := by
    intro cur hcur
    split_ifs at hcur
    · exact get_of_byName hcur
    · rw [(Table.get_eq_some.mp hcur).2]
      exact hcur
  unfold Proposals.stepReading
  split
  · next cur d hcur =>
    refine h.goPropose fun c hc it hit => ?_
    cases hc
    rcases List.mem_append.mp hit with hit | hit
    · exact hitems it hit
    · rw [List.mem_singleton.mp hit]
      refine h.judged_newItem (fun x hx => ?_) d
      cases hx
      exact hread cur hcur
  · exact h.goPropose fun _ hc => by cases hc
  · split_ifs
    · exact h.goPropose fun _ hc => by cases hc
    · refine h.goPropose fun c hc it hit => ?_
      cases hc
      exact hitems it hit

/-- What is applied automatically is low-risk against the row it replaces. -/
theorem autoSound_of_done {U : Automations.Rows} {id index : ℕ} {it it' : Item} {ans : Answer}
    {apc : ApplyPc} {e : Event} {fresh : Option String} (hit : Judged classifyChange s it)
    (hrisk : it.lowRisk = true)
    (h : applyItem s.automations id index it .autoApplied ans apc = .done U it' e fresh)
    (hsome : it.automationId ≠ none) : AutoSound classifyChange e := by
  rcases applyItem_done h with ⟨hnone, -⟩ | ⟨aid, haid, hupdate, -, rfl⟩
  · exact absurd hnone hsome
  · intro id' index' expected replaced after heq
    obtain ⟨version, d, hversion, hlow, hknown⟩ := hit aid haid
    obtain ⟨r, hr, hrv⟩ := version_of_update hupdate
    have hv := hrv version hversion
    obtain ⟨-, rfl⟩ := (hknown.row r hr).resolve_left (by omega)
    cases heq
    exact ⟨r, hr, by rw [hversion, hv], hlow.symm.trans hrisk⟩

theorem Judging.stepAuto (h : Judging classifyChange s) {kind : Kind} {done : List Item} {it : Item}
    {rest : List Item} {apc : ApplyPc}
    (hn : s.proposing n = some (caller, .applying kind done (it :: rest) apc)) (ans : Answer) :
    Judging classifyChange (stepAuto s n caller kind done it rest apc ans) := by
  have hrest : ∀ x ∈ rest, Judged classifyChange s x := fun x hx =>
    h.items n _ hn x (List.mem_cons_of_mem _ hx)
  have hit : Judged classifyChange s it := h.items n _ hn it List.mem_cons_self
  unfold Proposals.stepAuto
  dsimp only
  split_ifs with hskip
  · exact h.goes hn fun x hx => List.mem_cons_of_mem _ hx
  · simp only [Bool.or_eq_true, Bool.not_eq_true', Option.isNone_iff_eq_none, not_or,
      Bool.not_eq_false] at hskip
    split
    · exact h.goes hn fun x hx => List.mem_cons_of_mem _ hx
    · exact h.goes hn fun x hx => hx
    · next U it' e fresh hdone =>
      refine h.next (.commit hdone (fun hnone => absurd hnone hskip.2) rfl rfl)
        (judged_update h fun c hc x hx => ?_) fun e' he => ?_
      · cases hc
        exact hrest x hx
      · rcases List.mem_append.mp he with he | he
        · exact .inl he
        · rw [List.mem_singleton.mp he]
          exact .inr (autoSound_of_done hit hskip.1 hdone hskip.2)

theorem Judging.stepPropose (h : Judging classifyChange s) (hn : s.proposing n = some (caller, pc))
    (ans : Answer) : Judging classifyChange (stepPropose classifyChange s n caller ans pc) := by
  have hitems := h.items n _ hn
  cases pc with
  | byName d =>
    simp only [Proposals.stepPropose]
    split_ifs
    · exact h.goPropose fun _ hc => by cases hc
    · refine h.goPropose fun c hc it hit => ?_
      cases hc
      rw [List.mem_singleton.mp hit]
      exact h.judged_newItem (by simp) d
  | reading kind todo byName items =>
    cases todo with
    | nil => exact h.goes hn fun x hx => hx
    | cons head todo => exact h.stepReading hitems
  | pending kind items => exact h.goes hn fun x hx => hx
  | marking kind items rest =>
    cases rest with
    | nil => exact h.goes hn fun x hx => hx
    | cons p rest =>
      simp only [Proposals.stepPropose]
      split_ifs
      · exact (h.save _).goes hn fun x hx => hx
      · exact h.goes hn fun x hx => hx
  | trusted kind items =>
    simp only [Proposals.stepPropose]
    split_ifs
    · exact h.goes hn fun x hx => hx
    · exact h.goes hn fun x hx => by cases hx
  | applying kind done rest apc =>
    cases rest with
    | nil => exact h.goes hn fun x hx => by cases hx
    | cons it rest => exact h.stepAuto hn ans
  | creating kind items => exact (h.insert _).goPropose fun _ hc => by cases hc
  | capturePending change => exact h.goes hn fun x hx => by cases hx
  | captureMarking change rest =>
    cases rest with
    | nil => exact h.goes hn fun x hx => by cases hx
    | cons p rest =>
      simp only [Proposals.stepPropose]
      split_ifs
      · exact (h.save _).goes hn fun x hx => by cases hx
      · exact h.goes hn fun x hx => by cases hx
  | captureCreating change => exact (h.insert _).goPropose fun _ hc => by cases hc

/-! The user's side: it writes the automations too, and applies nothing automatically. -/

theorem Judging.goDecide (h : Judging classifyChange s) (id : ℕ) (o : Option DecidePc) :
    Judging classifyChange (s.goDecide id o) :=
  h.next (.same rfl rfl) h.items fun _ he => .inl he

theorem Judging.commit (h : Judging classifyChange s) {U : Automations.Rows} {e : Event}
    {fresh : Option String} (hg : Grown s (s.commit U e fresh))
    (he : AutoSound classifyChange e) : Judging classifyChange (s.commit U e fresh) := by
  refine h.next hg h.items fun e' he' => ?_
  rcases List.mem_append.mp he' with he' | he'
  · exact .inl he'
  · rw [List.mem_singleton.mp he']
    exact .inr he

theorem Judging.stepApprove (h : Judging classifyChange s) {id : ℕ} {p : Proposal}
    {accept : Option (List ℕ)} {done : List Item} {it : Item} {rest : List Item} {failed : Bool}
    {apc : ApplyPc} {ans : Answer} (hfresh : ans.freshId ∉ s.usedIds) :
    Judging classifyChange (stepApprove s id p accept done it rest failed apc ans) := by
  unfold Proposals.stepApprove
  dsimp only
  split_ifs
  · exact h.goDecide ..
  · exact h.goDecide ..
  · split
    · exact h.goDecide ..
    · exact h.goDecide ..
    · next U it' e fresh hdone =>
      refine (h.commit (.commit hdone (fun _ => hfresh) rfl rfl) ?_).goDecide ..
      rcases applyItem_done hdone with ⟨-, -, -, rfl⟩ | ⟨aid, -, -, -, rfl⟩
      · intro _ _ _ _ _ heq
        cases heq
      · intro _ _ _ _ _ heq
        cases heq

theorem Judging.stepDecide (h : Judging classifyChange s) {id : ℕ} {ans : Answer} {dpc : DecidePc}
    (hfresh : ans.freshId ∉ s.usedIds) : Judging classifyChange (stepDecide s id ans dpc) := by
  cases dpc with
  | approveGet opts => exact h.goDecide ..
  | captureApply p =>
    simp only [Proposals.stepDecide]
    split_ifs
    · exact h.goDecide ..
    · exact h.goDecide ..
  | applying p accept done rest failed apc =>
    cases rest with
    | nil => exact h.goDecide ..
    | cons it rest => exact h.stepApprove hfresh
  | saving p => exact (h.save p).goDecide ..
  | rejectGet note => exact h.goDecide ..
  | revertGet index => exact h.goDecide ..
  | revertRow p index => exact h.goDecide ..
  | revertUpdate p index version =>
    simp only [Proposals.stepDecide]
    split
    · exact h.goDecide ..
    · split
      · split
        · next cur U _ hU =>
          refine (h.commit (.update hU rfl rfl) ?_).goDecide ..
          intro _ _ _ _ _ heq
          cases heq
        · exact h.goDecide ..
      · exact h.goDecide ..

theorem Judging.spawn (h : Judging classifyChange s) (hpc : pc.items = []) :
    Judging classifyChange (s.spawn caller pc) := by
  refine h.next (.same rfl rfl) (judged_update h fun c hc it hit => ?_) fun _ he => .inl he
  cases hc
  rw [hpc] at hit
  cases hit

theorem Judging.claim (h : Judging classifyChange s) (id : ℕ) (dpc : DecidePc) :
    Judging classifyChange (s.claim id dpc) := by
  unfold State.claim
  split_ifs
  · exact h
  · exact h.goDecide ..

theorem Judging.step (h : Judging classifyChange s) (hs : step classifyChange s act = some t) :
    Judging classifyChange t := by
  cases act with
  | propose caller d =>
    obtain rfl := Option.some.inj hs
    exact h.spawn rfl
  | proposeChange caller batch =>
    simp only [Proposals.step] at hs
    split at hs
    · exact Option.some.inj hs ▸ h
    · obtain rfl := Option.some.inj hs
      exact h.spawn rfl
  | proposeCaptureSettings caller change =>
    obtain rfl := Option.some.inj hs
    exact h.spawn rfl
  | approve id opts =>
    obtain rfl := Option.some.inj hs
    exact h.claim ..
  | reject id note =>
    obtain rfl := Option.some.inj hs
    exact h.claim ..
  | revert id index =>
    obtain rfl := Option.some.inj hs
    exact h.claim ..
  | proposeStep n ans =>
    obtain ⟨⟨caller, pc⟩, hn, rfl⟩ := Option.map_eq_some_iff.mp hs
    exact h.stepPropose hn ans
  | decideStep id ans =>
    simp only [Proposals.step] at hs
    split_ifs at hs with hfresh
    obtain ⟨dpc, -, rfl⟩ := Option.map_eq_some_iff.mp hs
    exact h.stepDecide hfresh
  | edit id d =>
    simp only [Proposals.step, Option.some.injEq] at hs
    subst hs
    split
    · exact h
    · next U hU => exact h.next (.update hU rfl rfl) h.items fun _ he => .inl he
  | remove id =>
    obtain rfl := Option.some.inj hs
    have hg : Grown s { s with automations := Automations.remove s.automations id } :=
      .remove rfl rfl
    exact h.next hg h.items fun _ he => .inl he

end Judging

/-! Runs in which the user neither approves, reverts nor edits. -/

/-- What the definitions of the automations may become when only low-risk changes are applied. -/
def Drifts (s t : State) : Prop :=
  ∀ aid r', t.automations.get aid = some r' → ∃ r, s.automations.get aid = some r ∧
    Relation.ReflTransGen (fun a b => classifyChange (some a) b = true) r.definition r'.definition

def unattended : Action → Bool
  | .approve .. => false
  | .revert .. => false
  | .edit .. => false
  | _ => true

/-- The decision is a rejection. -/
def DecidePc.rejects : DecidePc → Bool
  | .rejectGet _ => true
  | .saving _ => true
  | _ => false

def Rejecting (s : State) : Prop := ∀ id pc, s.deciding id = some pc → pc.rejects = true

section Drifts

variable {classifyChange}
variable {s t : State} {n : ℕ} {caller : String} {pc : ProposePc} {act : Action}

theorem Drifts.same (h : t.automations = s.automations) : Drifts classifyChange s t :=
  fun _ r' hr' => ⟨r', h ▸ hr', .refl⟩

theorem Drifts.trans {u : State} (h : Drifts classifyChange s t) (h' : Drifts classifyChange t u) :
    Drifts classifyChange s u := by
  intro aid r'' hr''
  obtain ⟨r', hr', hchain'⟩ := h' aid r'' hr''
  obtain ⟨r, hr, hchain⟩ := h aid r' hr'
  exact ⟨r, hr, hchain.trans hchain'⟩

theorem drifts_stepAuto (h : Judging classifyChange s) {kind : Kind} {done : List Item} {it : Item}
    {rest : List Item} {apc : ApplyPc}
    (hn : s.proposing n = some (caller, .applying kind done (it :: rest) apc)) (ans : Answer) :
    Drifts classifyChange s (stepAuto s n caller kind done it rest apc ans) := by
  have hit : Judged classifyChange s it := h.items n _ hn it List.mem_cons_self
  unfold Proposals.stepAuto
  dsimp only
  split_ifs with hskip
  · exact .same rfl
  · simp only [Bool.or_eq_true, Bool.not_eq_true', Option.isNone_iff_eq_none, not_or,
      Bool.not_eq_false] at hskip
    split
    · exact .same rfl
    · exact .same rfl
    · next U it' e fresh hdone =>
      have hsound := autoSound_of_done hit hskip.1 hdone hskip.2
      rcases applyItem_done hdone with ⟨hnone, -⟩ | ⟨aid, -, hupdate, -, rfl⟩
      · exact absurd hnone hskip.2
      · obtain ⟨r, hr, -, hrisk⟩ := hsound _ _ _ _ _ rfl
        obtain ⟨old, hold, hget⟩ := update_some hupdate
        obtain rfl := Option.some.inj (hold.symm.trans hr)
        intro k r' hr'
        have hk : U.get k = some r' := hr'
        rw [hget] at hk
        split_ifs at hk with haid
        · obtain rfl := Option.some.inj hk
          exact ⟨old, haid ▸ hold, .single hrisk⟩
        · exact ⟨r', hk, .refl⟩

theorem drifts_stepPropose (h : Judging classifyChange s) (hn : s.proposing n = some (caller, pc))
    (ans : Answer) :
    Drifts classifyChange s (stepPropose classifyChange s n caller ans pc) ∧
      (stepPropose classifyChange s n caller ans pc).deciding = s.deciding := by
  cases pc with
  | byName d =>
    simp only [Proposals.stepPropose]
    split_ifs <;> exact ⟨.same rfl, rfl⟩
  | reading kind todo byName items =>
    cases todo with
    | nil => exact ⟨.same rfl, rfl⟩
    | cons head todo =>
      simp only [Proposals.stepPropose, Proposals.stepReading]
      split
      · exact ⟨.same rfl, rfl⟩
      · exact ⟨.same rfl, rfl⟩
      · split_ifs <;> exact ⟨.same rfl, rfl⟩
  | marking kind items rest =>
    cases rest with
    | nil => exact ⟨.same rfl, rfl⟩
    | cons p rest =>
      simp only [Proposals.stepPropose]
      split_ifs <;> exact ⟨.same rfl, rfl⟩
  | trusted kind items =>
    simp only [Proposals.stepPropose]
    split_ifs <;> exact ⟨.same rfl, rfl⟩
  | applying kind done rest apc =>
    cases rest with
    | nil => exact ⟨.same rfl, rfl⟩
    | cons it rest =>
      refine ⟨drifts_stepAuto h hn ans, ?_⟩
      simp only [Proposals.stepPropose, Proposals.stepAuto]
      split_ifs
      · rfl
      · split <;> rfl
  | captureMarking change rest =>
    cases rest with
    | nil => exact ⟨.same rfl, rfl⟩
    | cons p rest =>
      simp only [Proposals.stepPropose]
      split_ifs <;> exact ⟨.same rfl, rfl⟩
  | pending kind items => exact ⟨.same rfl, rfl⟩
  | creating kind items => exact ⟨.same rfl, rfl⟩
  | capturePending change => exact ⟨.same rfl, rfl⟩
  | captureCreating change => exact ⟨.same rfl, rfl⟩

theorem Rejecting.update (h : Rejecting s) {id : ℕ} {o : Option DecidePc}
    (ho : ∀ dpc, o = some dpc → dpc.rejects = true)
    (hd : t.deciding = Function.update s.deciding id o) : Rejecting t := by
  intro m dpc hm
  rw [hd] at hm
  by_cases hid : m = id
  · rw [hid, Function.update_self] at hm
    exact ho dpc hm
  · rw [Function.update_of_ne hid] at hm
    exact h m dpc hm

theorem drifts_step (h : Judging classifyChange s) (hrej : Rejecting s)
    (hact : unattended act = true) (hs : step classifyChange s act = some t) :
    Drifts classifyChange s t ∧ Rejecting t := by
  cases act with
  | propose caller d =>
    obtain rfl := Option.some.inj hs
    exact ⟨.same rfl, hrej⟩
  | proposeChange caller batch =>
    simp only [Proposals.step] at hs
    split at hs <;> obtain rfl := Option.some.inj hs <;> exact ⟨.same rfl, hrej⟩
  | proposeCaptureSettings caller change =>
    obtain rfl := Option.some.inj hs
    exact ⟨.same rfl, hrej⟩
  | approve id opts => cases hact
  | revert id index => cases hact
  | edit id d => cases hact
  | reject id note =>
    obtain rfl := Option.some.inj hs
    unfold State.claim
    split_ifs
    · exact ⟨.same rfl, hrej⟩
    · refine ⟨.same rfl, hrej.update (fun dpc hdpc => ?_) rfl⟩
      cases hdpc
      rfl
  | proposeStep n ans =>
    obtain ⟨⟨caller, pc⟩, hn, rfl⟩ := Option.map_eq_some_iff.mp hs
    obtain ⟨hdrift, hdeciding⟩ := drifts_stepPropose h hn ans
    exact ⟨hdrift, fun id dpc hid => hrej id dpc (hdeciding ▸ hid)⟩
  | decideStep id ans =>
    simp only [Proposals.step] at hs
    split_ifs at hs
    obtain ⟨dpc, hdpc, rfl⟩ := Option.map_eq_some_iff.mp hs
    have hkind := hrej id dpc hdpc
    cases dpc with
    | rejectGet note =>
      refine ⟨.same rfl, hrej.update (fun dpc' ho => ?_) rfl⟩
      obtain ⟨p, -, hp⟩ := Option.bind_eq_some_iff.mp ho
      split_ifs at hp
      cases hp
      rfl
    | saving p => exact ⟨.same rfl, hrej.update (fun dpc' ho => by cases ho) rfl⟩
    | _ => cases hkind
  | remove id =>
    obtain rfl := Option.some.inj hs
    refine ⟨fun aid r' hr' => ⟨r', ?_, .refl⟩, hrej⟩
    have hget : (Automations.remove s.automations id).get aid = some r' := hr'
    rw [Automations.remove, Table.get_deleteWhere] at hget
    exact (Option.filter_eq_some_iff.mp hget).1

end Drifts

/-- No call is under way, and the ids of the automations are used. -/
structure Opening (s : State) : Prop where
  ids : ∀ id r, s.automations.get id = some r → id ∈ s.usedIds
  proposing : ∀ n, s.proposing n = none
  deciding : ∀ id, s.deciding id = none
  log : s.log = []

variable {classifyChange}

theorem Opening.judging {s : State} (h : Opening s) : Judging classifyChange s := by
  refine ⟨h.ids, fun n c hc => ?_, fun e he => ?_⟩
  · cases (h.proposing n).symm.trans hc
  · rw [h.log] at he
    cases he

/-- However calls, approvals, reverts and the user's own edits and removals interleave, what a
proposal applies automatically was judged low-risk against the very row it replaced. -/
theorem auto_applied_low_risk {s t : State} {as : List Action} (hopen : Opening s)
    (hr : run (step classifyChange) s as = some t) {id index : ℕ} {expected : Option ℕ}
    {replaced : Option AutomationRecord} {after : AutomationDef}
    (hlog : Event.applied id index true expected replaced after ∈ t.log) :
    ∃ r, replaced = some r ∧ expected = some r.version ∧
      classifyChange (some r.definition) after = true := by
  have hend : Judging classifyChange t :=
    run_invariant (fun _ _ _ h hs => h.step hs) hopen.judging hr
  exact hend.log _ hlog _ _ _ _ _ rfl

def utcNames : Classify.Names := ⟨fun _ => ⟨fun _ => 0⟩, fun w => w⟩

def looking (message : String) : AutomationDef :=
  { name := "check", triggers := [],
    steps := [.prompt "s" { workspace := "w", mode := .live, message := message }] }

def oneAutomation : State where
  automations := ⟨[⟨"a", "check", true, 1, looking "look", 0, none, none, none⟩], by simp⟩
  usedIds := ["a"]

/-- A trusted workspace rewords a prompt. -/
def rewording : List Action :=
  .proposeChange "w" [("a", some (looking "look again"))] ::
    List.replicate 9 (.proposeStep 0 { trusted := true })

theorem oneAutomation_opening : Opening oneAutomation where
  ids id r hr := by
    obtain ⟨hmem, rfl⟩ := Table.get_eq_some.mp hr
    rw [List.mem_singleton.mp hmem]
    exact List.mem_cons_self
  proposing _ := rfl
  deciding _ := rfl
  log := rfl

theorem auto_applied_low_risk_rewording :
    ∃ t, run (step (Classify.lowRisk utcNames)) oneAutomation rewording = some t ∧
      ∃ replaced, Event.applied 0 0 true (some 1) replaced (looking "look again") ∈ t.log ∧
        ∃ r, replaced = some r ∧ some 1 = some r.version ∧
          Classify.lowRisk utcNames (some r.definition) (looking "look again") = true := by
  have hrun : (run (step (Classify.lowRisk utcNames)) oneAutomation rewording).any (fun t =>
      Event.applied 0 0 true (some 1)
        (some ⟨"a", "check", true, 1, looking "look", 0, none, none, none⟩)
        (looking "look again") ∈ t.log) = true := by decide +kernel
  obtain ⟨t, ht, hlog⟩ := (Option.any_eq_true _ _).mp hrun
  have hlog := of_decide_eq_true hlog
  exact ⟨t, ht, _, hlog, auto_applied_low_risk oneAutomation_opening ht hlog⟩

/-- As long as the user approves, reverts and edits nothing, every automation stays within what it
could do at first, whatever trusted workspaces propose: it keeps its definition, or has one that
widens nothing and runs nothing on the host. -/
theorem unattended_within {N : Classify.Names} {s t : State} {as : List Action} (hopen : Opening s)
    (hr : run (step (Classify.lowRisk N)) s as = some t)
    (has : Along (step (Classify.lowRisk N)) (fun _ act => unattended act = true) s as)
    {aid : String} {r' : AutomationRecord} (hget : t.automations.get aid = some r') :
    ∃ r, s.automations.get aid = some r ∧ (r'.definition = r.definition ∨
      Classify.Within N r.definition r'.definition ∧
        r'.definition.steps.any Classify.onHost = false) := by
  have hend : Judging (Classify.lowRisk N) t ∧ Rejecting t ∧ Drifts (Classify.lowRisk N) s t := by
    refine run_invariant_along (I := fun t => Judging (Classify.lowRisk N) t ∧ Rejecting t ∧
      Drifts (Classify.lowRisk N) s t) (fun u act v h hact hs => ?_) ?_ hr has
    · obtain ⟨hdrift, hrej⟩ := drifts_step h.1 h.2.1 hact hs
      exact ⟨h.1.step hs, hrej, h.2.2.trans hdrift⟩
    · refine ⟨hopen.judging, fun id dpc hid => ?_, .same rfl⟩
      cases (hopen.deciding id).symm.trans hid
  obtain ⟨r, hr, hchain⟩ := hend.2.2 aid r' hget
  refine ⟨r, hr, ?_⟩
  rcases Relation.reflTransGen_iff_eq_or_transGen.mp hchain with heq | hchain
  · exact .inl heq
  · exact .inr (Classify.within_of_chain hchain)

theorem unattended_within_rewording :
    ∃ t, run (step (Classify.lowRisk utcNames)) oneAutomation rewording = some t ∧
      ∃ r', t.automations.get "a" = some r' ∧ r'.definition = looking "look again" ∧
        ∃ r, oneAutomation.automations.get "a" = some r ∧ (r'.definition = r.definition ∨
          Classify.Within utcNames r.definition r'.definition ∧
            r'.definition.steps.any Classify.onHost = false) := by
  have hrun : (run (step (Classify.lowRisk utcNames)) oneAutomation rewording).any (fun t =>
      (t.automations.get "a").any fun r => r.definition = looking "look again") = true := by
    decide +kernel
  obtain ⟨t, ht, hget⟩ := (Option.any_eq_true _ _).mp hrun
  obtain ⟨r', hr', hdef⟩ := (Option.any_eq_true _ _).mp hget
  exact ⟨t, ht, r', hr', of_decide_eq_true hdef,
    unattended_within oneAutomation_opening ht (by decide +kernel) hr'⟩

end ClaudeFleet.Proposals
