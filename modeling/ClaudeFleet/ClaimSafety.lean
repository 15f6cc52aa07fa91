import ClaudeFleet.ClaimService

/-! What a recorded claim can count on. A record decides on a snapshot, so what the snapshot said of
a claim has to hold until the write: its visibility and workspace never change, but its status does,
and only the insert looks at it again. -/
namespace ClaudeFleet.ClaimService
open Transition

variable {V : Type}

theorem mem_visible {claims : List (Claim V)} {callerId : String} {c : Claim V}
    (h : c ∈ visible claims callerId) :
    c ∈ claims ∧ (c.visibility = .fleet ∨ c.workspaceId = callerId) ∧ c.status = .current := by
  unfold visible at h
  rw [List.mem_insertionSort, List.mem_filter] at h
  simpa [and_assoc] using h

theorem mem_scored {dot : V → V → ℚ} {vec : Option V} {seen : List (Claim V)} {x : Claim V × ℚ}
    (h : x ∈ scored dot vec seen) : x.1 ∈ seen := by
  unfold scored at h
  split at h
  · cases h
  · rw [List.mem_insertionSort, List.mem_filterMap] at h
    obtain ⟨c, hc, h⟩ := h
    obtain ⟨w, -, rfl⟩ := Option.map_eq_some_iff.mp h
    exact hc

theorem duplicate_spec {dot : V → V → ℚ} {input : ClaimInput} {vec : Option V}
    {seen : List (Claim V)} {c : Claim V} (h : duplicate dot input vec seen = some c) :
    c ∈ seen ∧ c.visibility = input.visibility := by
  unfold duplicate at h
  split_ifs at h
  obtain ⟨x, hx, rfl⟩ := Option.map_eq_some_iff.mp h
  have hp := List.find?_some hx
  simp only [Bool.and_eq_true, decide_eq_true_eq] at hp
  exact ⟨mem_scored (List.mem_of_find?_eq_some hx), hp.2⟩

theorem checkTarget_spec {input : ClaimInput} {seen : List (Claim V)} {target : String}
    (h : checkTarget input seen = .ok ()) (htarget : given input.supersedes = some target) :
    ∃ c ∈ seen, c.id = target ∧ (c.visibility = .fleet → input.visibility = .fleet) := by
  unfold checkTarget at h
  rw [htarget] at h
  dsimp only at h
  split at h
  · cases h
  · next c hc =>
    split_ifs at h with hvis
    have hid := List.find?_some hc
    refine ⟨c, List.mem_of_find?_eq_some hc, by simpa using hid, fun hfleet => ?_⟩
    by_contra hne
    exact hvis ⟨hfleet, hne⟩

/-- The table has a claim under this id, with a visibility and a workspace as `Q` says. -/
def Names (T : Table (Claim.id (V := V))) (id : String) (Q : Visibility → String → Prop) : Prop :=
  ∃ c ∈ T.rows, c.id = id ∧ Q c.visibility c.workspaceId

/-- Every claim is still there, with its visibility and workspace. -/
def Keeps (T T' : Table (Claim.id (V := V))) : Prop :=
  ∀ c ∈ T.rows, ∃ c' ∈ T'.rows,
    c'.id = c.id ∧ c'.visibility = c.visibility ∧ c'.workspaceId = c.workspaceId

theorem Names.keeps {T T' : Table (Claim.id (V := V))} {id : String}
    {Q : Visibility → String → Prop} (h : Names T id Q) (hk : Keeps T T') : Names T' id Q := by
  obtain ⟨c, hc, hid, hQ⟩ := h
  obtain ⟨c', hc', hid', hvis, hws⟩ := hk c hc
  exact ⟨c', hc', hid'.trans hid, by rwa [hvis, hws]⟩

theorem Keeps.refl (T : Table (Claim.id (V := V))) : Keeps T T :=
  fun c hc => ⟨c, hc, rfl, rfl, rfl⟩

theorem Keeps.trans {T T' T'' : Table (Claim.id (V := V))} (h : Keeps T T') (h' : Keeps T' T'') :
    Keeps T T'' := by
  intro c hc
  obtain ⟨d, hd, hid, hvis, hws⟩ := h c hc
  obtain ⟨e, he, hid', hvis', hws'⟩ := h' d hd
  exact ⟨e, he, hid'.trans hid, hvis'.trans hvis, hws'.trans hws⟩

theorem Keeps.updateWhere (T : Table (Claim.id (V := V))) (p : Claim V → Bool)
    (f : Claim V → Claim V) (hf : ∀ c, (f c).id = c.id)
    (hvis : ∀ c, (f c).visibility = c.visibility) (hws : ∀ c, (f c).workspaceId = c.workspaceId) :
    Keeps T (T.updateWhere p f hf) := by
  intro c hc
  refine ⟨_, List.mem_map_of_mem hc, ?_⟩
  split_ifs
  · exact ⟨hf c, hvis c, hws c⟩
  · exact ⟨rfl, rfl, rfl⟩

theorem Keeps.insertIgnore (T : Table (Claim.id (V := V))) (c : Claim V) :
    Keeps T (T.insertIgnore c) :=
  fun d hd => ⟨d, Table.mem_insertIgnore.mpr (Or.inl hd), rfl, rfl, rfl⟩

theorem Keeps.supersede (T : Table (Claim.id (V := V))) (target id : String) (now : ℤ) :
    Keeps T (ClaimService.supersede T target id now) := by
  apply Keeps.updateWhere
  · intro c
    rfl
  · intro c
    rfl

/-- A claim is superseded by a later one, and a fleet claim by a fleet claim. -/
def Chained (T : Table (Claim.id (V := V))) : Prop :=
  ∀ c ∈ T.rows, ∀ id, c.supersededBy = some id →
    (T.rows.map Claim.id).idxOf c.id < (T.rows.map Claim.id).idxOf id ∧
    Names T id fun v _ => c.visibility = .fleet → v = .fleet

theorem Chained.updateWhere {T : Table (Claim.id (V := V))} (h : Chained T) {p : Claim V → Bool}
    {f : Claim V → Claim V} (hf : ∀ c, (f c).id = c.id)
    (hvis : ∀ c, (f c).visibility = c.visibility) (hws : ∀ c, (f c).workspaceId = c.workspaceId)
    (hby : ∀ c, (f c).supersededBy = c.supersededBy) : Chained (T.updateWhere p f hf) := by
  have hids : (T.updateWhere p f hf).rows.map Claim.id = T.rows.map Claim.id :=
    Table.map_update f p hf T.rows
  intro c' hc' id hid
  obtain ⟨c, hc, rfl⟩ := List.mem_map.mp hc'
  have hsame : (if p c = true then f c else c).supersededBy = c.supersededBy ∧
      (if p c = true then f c else c).id = c.id ∧
      (if p c = true then f c else c).visibility = c.visibility := by
    split_ifs
    · exact ⟨hby c, hf c, hvis c⟩
    · exact ⟨rfl, rfl, rfl⟩
  rw [hsame.1] at hid
  obtain ⟨hlt, hnames⟩ := h c hc id hid
  rw [hids, hsame.2.1, hsame.2.2]
  exact ⟨hlt, hnames.keeps (.updateWhere T p f hf hvis hws)⟩

theorem rows_insertIgnore {T : Table (Claim.id (V := V))} {c : Claim V} (h : T.get c.id = none) :
    (T.insertIgnore c).rows = T.rows ++ [c] := by
  have hnew : c.id ∉ T.rows.map Claim.id := by
    intro hmem
    obtain ⟨d, hd⟩ := Table.mem_map_key.mp hmem
    exact absurd (h.symm.trans hd) nofun
  unfold Table.insertIgnore
  rw [dif_neg hnew]

theorem Chained.insertIgnore {T : Table (Claim.id (V := V))} (h : Chained T) {c : Claim V}
    (hnew : T.get c.id = none) (hby : c.supersededBy = none) : Chained (T.insertIgnore c) := by
  intro d hd id hid
  rw [rows_insertIgnore hnew] at hd ⊢
  rcases List.mem_append.mp hd with hd | hd
  · obtain ⟨hlt, hnames⟩ := h d hd id hid
    obtain ⟨e, he, rfl, -⟩ := hnames
    rw [List.map_append, List.idxOf_append_of_mem (List.mem_map_of_mem hd),
      List.idxOf_append_of_mem (List.mem_map_of_mem he)]
    exact ⟨hlt, (h d hd _ hid).2.keeps (.insertIgnore T c)⟩
  · obtain rfl := List.mem_singleton.mp hd
    rw [hby] at hid
    cases hid

/-- The new claim is the last one, so what it supersedes stands before it. -/
theorem Chained.superseding {T : Table (Claim.id (V := V))} {c : Claim V} {target : String}
    {now : ℤ} (h : Chained (T.insertIgnore c)) (hnew : T.get c.id = none)
    (htarget : Names T target fun v _ => v = .fleet → c.visibility = .fleet) :
    Chained (supersede (T.insertIgnore c) target c.id now) := by
  have hids : (supersede (T.insertIgnore c) target c.id now).rows.map Claim.id =
      (T.insertIgnore c).rows.map Claim.id := by
    apply Table.map_update
    intro d
    rfl
  have hkeeps := Keeps.supersede (T.insertIgnore c) target c.id now
  have hlast : Names (T.insertIgnore c) c.id fun v _ => v = c.visibility :=
    ⟨c, by rw [rows_insertIgnore hnew]; simp, rfl, rfl⟩
  intro d' hd' id hid
  rw [hids]
  obtain ⟨d, hd, rfl⟩ := List.mem_map.mp hd'
  split_ifs at hid ⊢ with hp
  · obtain rfl := Option.some.inj hid
    have hdt : d.id = target := by simpa using (of_decide_eq_true hp).1
    obtain ⟨e, he, hetarget, hfleet⟩ := htarget
    have hde : d = e := by
      refine List.inj_on_of_nodup_map (T.insertIgnore c).nodup hd ?_ (hdt.trans hetarget.symm)
      rw [rows_insertIgnore hnew]
      exact List.mem_append_left _ he
    subst hde
    constructor
    · have hmem : d.id ∈ T.rows.map Claim.id := List.mem_map_of_mem he
      have hnot : c.id ∉ T.rows.map Claim.id := by
        intro hmem
        obtain ⟨e, he⟩ := Table.mem_map_key.mp hmem
        exact absurd (hnew.symm.trans he) nofun
      rw [rows_insertIgnore hnew, List.map_append, List.idxOf_append_of_mem hmem,
        List.idxOf_append_of_notMem hnot]
      exact Nat.lt_add_right _ (List.idxOf_lt_length_of_mem hmem)
    · obtain ⟨c', hc', hid', hvis⟩ := hlast.keeps hkeeps
      exact ⟨c', hc', hid', fun hd => hvis.trans (hfleet hd)⟩
  · obtain ⟨hlt, hnames⟩ := h d hd id hid
    exact ⟨hlt, hnames.keeps hkeeps⟩

/-- What an insert that commits has done. -/
theorem insert_eq_ok {s s' : State V} {c : Claim V} {source : Source} {supersedes : Option String}
    (h : insert s c source supersedes = .ok s') :
    s.claims.get c.id = none ∧
    s'.sources = s.sources ++ [⟨c.id, source, c.createdAt⟩] ∧ s'.next = s.next ∧
    s'.tasks = s.tasks ∧
    (given supersedes = none ∧ s'.claims = s.claims.insertIgnore c ∨
      ∃ target, given supersedes = some target ∧
        s'.claims = supersede (s.claims.insertIgnore c) target c.id c.createdAt) := by
  unfold insert at h
  split_ifs at h with hmem
  have hnew : s.claims.get c.id = none := by simpa using hmem
  dsimp only at h
  split at h
  · next hnone =>
    obtain rfl := Except.ok.inj h
    exact ⟨hnew, rfl, rfl, rfl, Or.inl ⟨hnone, rfl⟩⟩
  · next target hsome =>
    split_ifs at h
    obtain rfl := Except.ok.inj h
    exact ⟨hnew, rfl, rfl, rfl, Or.inr ⟨target, hsome, rfl⟩⟩

/-- What a task that is about to write knows of the claims. -/
def TaskSound (T : Table (Claim.id (V := V))) : Task V → Prop
  | .record callerId input (.writing _ (.confirm id _) _) =>
    Names T id fun v w => v = input.visibility ∧ (input.visibility = .priv → w = callerId)
  | .record _ _ (.writing _ (.insert c supersedes) _) =>
    c.status = .current ∧ c.supersededBy = none ∧
    ∀ target, given supersedes = some target →
      Names T target fun v _ => v = .fleet → c.visibility = .fleet
  | _ => True

theorem TaskSound.keeps {T T' : Table (Claim.id (V := V))} {x : Task V} (h : TaskSound T x)
    (hk : Keeps T T') : TaskSound T' x := by
  unfold TaskSound at h ⊢
  split at h
  · exact h.keeps hk
  · exact ⟨h.1, h.2.1, fun target htarget => (h.2.2 target htarget).keeps hk⟩
  · trivial

theorem chooseWrite_sound {dot : V → V → ℚ} {T : Table (Claim.id (V := V))} {callerId : String}
    {input : ClaimInput} {vec : Option V} {now : ℤ} {id : String} {source : Source} {w : Write V}
    {suggested : List String}
    (h : chooseWrite dot callerId input vec (visible T.rows callerId) now id = .ok (w, suggested)) :
    TaskSound T (.record callerId input (.writing source w suggested)) := by
  unfold chooseWrite at h
  split at h
  · cases h
  · next hcheck =>
    dsimp only at h
    split at h
    · next c hdup =>
      cases h
      obtain ⟨hseen, hvis⟩ := duplicate_spec hdup
      obtain ⟨hc, hsees, -⟩ := mem_visible hseen
      refine ⟨c, hc, rfl, hvis, fun hpriv => hsees.resolve_left ?_⟩
      rw [hvis, hpriv]
      nofun
    · cases h
      refine ⟨rfl, rfl, fun target htarget => ?_⟩
      obtain ⟨c, hseen, hid, hfleet⟩ := checkTarget_spec hcheck htarget
      exact ⟨c, (mem_visible hseen).1, hid, hfleet⟩

def Current (T : Table (Claim.id (V := V))) (id : String) : Prop :=
  ∃ c ∈ T.rows, c.id = id ∧ c.status = .current

theorem Current.updateWhere {T : Table (Claim.id (V := V))} {id : String} (h : Current T id)
    {p : Claim V → Bool} {f : Claim V → Claim V} (hf : ∀ c, (f c).id = c.id)
    (hstatus : ∀ c, c.id = id → p c = true → (f c).status = c.status) :
    Current (T.updateWhere p f hf) id := by
  obtain ⟨c, hc, hid, hcur⟩ := h
  refine ⟨_, List.mem_map_of_mem hc, ?_⟩
  split_ifs with hp
  · exact ⟨(hf c).trans hid, (hstatus c hid hp).trans hcur⟩
  · exact ⟨hid, hcur⟩

theorem Current.insertIgnore {T : Table (Claim.id (V := V))} {id : String} (h : Current T id)
    (c : Claim V) : Current (T.insertIgnore c) id := by
  obtain ⟨d, hd, hid, hcur⟩ := h
  exact ⟨d, Table.mem_insertIgnore.mpr (Or.inl hd), hid, hcur⟩

theorem Current.supersede {T : Table (Claim.id (V := V))} {id target by' : String} {now : ℤ}
    (h : Current T id) (hne : target ≠ id) : Current (supersede T target by' now) id := by
  apply h.updateWhere
  intro c hid hp
  have htarget : c.id = target := (of_decide_eq_true hp).1
  exact absurd (htarget.symm.trans hid) hne

/-- The claim a task has chosen as its duplicate and not confirmed yet. -/
def confirming : Task V → Option String
  | .record _ _ (.writing _ (.confirm id _) _) => some id
  | _ => none

/-- The claim a record has written. -/
def answered : Task V → Option String
  | .record _ _ (.counting id _ _) => some id
  | .record _ _ (.returned id _ _) => some id
  | _ => none

/-- What the task of a record does when it writes nothing. -/
structure Quiet (T : Table (Claim.id (V := V))) (x y : Task V) : Prop where
  sound : TaskSound T y
  answered : ∀ id, answered y = some id → ClaimService.answered x = some id
  confirming : ∀ id, confirming y = some id → Current T id

theorem Quiet.of_none {T : Table (Claim.id (V := V))} {x y : Task V} (hsound : TaskSound T y)
    (hanswered : ClaimService.answered y = none) (hconfirming : ClaimService.confirming y = none) :
    Quiet T x y := by
  refine ⟨hsound, fun id hid => ?_, fun id hid => ?_⟩
  · rw [hanswered] at hid
    cases hid
  · rw [hconfirming] at hid
    cases hid

theorem written_cases (source : Source) (id : String) (deduped : Bool) (suggested : List String) :
    written (V := V) source id deduped suggested = .counting id deduped suggested ∨
      written (V := V) source id deduped suggested = .returned id deduped suggested := by
  unfold written
  split_ifs
  · exact Or.inl rfl
  · exact Or.inr rfl

/-- What a step does to the claims, the sources and the tasks. -/
inductive Effect (s : State V) : Action V → State V → Prop
  | spawn {a : Action V} {x : Task V} (hx : Quiet s.claims x x) (hnew : answered x = none) :
    Effect s a (s.spawn x)
  | quiet {t : ℕ} {a : Answer V} {x y : Task V} (ht : s.tasks t = some x)
    (h : Quiet s.claims x y) : Effect s (.resume t a) (s.goto t y)
  | confirm {t : ℕ} {a : Answer V} {callerId : String} {input : ClaimInput} {source : Source}
    {id : String} {now : ℤ} {suggested : List String} {pc : RecordPc V}
    (ht : s.tasks t = some (.record callerId input (.writing source (.confirm id now) suggested)))
    (hpc : pc = written source id true suggested ∨ ∃ e, pc = .threw e) :
    Effect s (.resume t a) ((confirm s id source now).goto t (.record callerId input pc))
  | insert {t : ℕ} {a : Answer V} {callerId : String} {input : ClaimInput} {source : Source}
    {c : Claim V} {supersedes : Option String} {suggested : List String} {pc : RecordPc V}
    {s' : State V}
    (ht : s.tasks t =
      some (.record callerId input (.writing source (.insert c supersedes) suggested)))
    (hinsert : insert s c source supersedes = .ok s')
    (hpc : pc = written source c.id false suggested ∨ ∃ e, pc = .threw e)
    (ha : a = .ok ∨ ∃ e, a = .lost e) :
    Effect s (.resume t a) (s'.goto t (.record callerId input pc))
  | retract {t : ℕ} {a : Answer V} {callerId id reason : String} {now : ℤ} {pc : RetractPc}
    (ht : s.tasks t = some (.retract callerId id reason (.retracting now)))
    (ha : a = .ok ∨ ∃ e, a = .lost e) :
    Effect s (.resume t a) ((retract s id reason now).goto t (.retract callerId id reason pc))
  | setVector {id : String} {vec : V} : Effect s (.setVector id vec)
    { s with
      claims := s.claims.updateWhere (fun c => c.id = id) (fun c => { c with vec := some vec })
        fun _ => rfl }

theorem chooseWrite_current {dot : V → V → ℚ} {T : Table (Claim.id (V := V))} {callerId : String}
    {input : ClaimInput} {vec : Option V} {now : ℤ} {id : String} {w : Write V}
    {suggested : List String}
    (h : chooseWrite dot callerId input vec (visible T.rows callerId) now id = .ok (w, suggested))
    {dup : String} {at' : ℤ} (hw : w = .confirm dup at') : Current T dup := by
  subst hw
  unfold chooseWrite at h
  split at h
  · cases h
  · dsimp only at h
    split at h
    · next c hdup =>
      cases h
      obtain ⟨hc, -, hcur⟩ := mem_visible (duplicate_spec hdup).1
      exact ⟨c, hc, rfl, hcur⟩
    · cases h

theorem resumeRecord_effect {dot : V → V → ℚ} {s s' : State V} {t : ℕ} {callerId : String}
    {input : ClaimInput} {pc : RecordPc V} {a : Answer V}
    (ht : s.tasks t = some (.record callerId input pc))
    (h : s.resumeRecord dot t callerId input pc a = some s') : Effect s (.resume t a) s' := by
  unfold State.resumeRecord at h
  dsimp only at h
  split at h
  · -- the capture run is looked up
    split at h
    · obtain rfl := Option.some.inj h
      exact .quiet ht (.of_none trivial rfl rfl)
    · obtain rfl := Option.some.inj h
      exact .quiet ht (.of_none trivial rfl rfl)
  · obtain rfl := Option.some.inj h
    exact .quiet ht (.of_none trivial rfl rfl)
  · split at h
    · obtain rfl := Option.some.inj h
      exact .quiet ht (.of_none trivial rfl rfl)
    · next w suggested hchoose =>
      obtain rfl := Option.some.inj h
      refine .quiet ht ⟨chooseWrite_sound hchoose, fun id hid => (nomatch hid), fun id hid => ?_⟩
      cases w with
      | confirm dup at' =>
        obtain rfl := Option.some.inj hid
        exact chooseWrite_current hchoose rfl
      | insert c supersedes => cases hid
  · obtain rfl := Option.some.inj h
    exact .confirm ht (Or.inl rfl)
  · obtain rfl := Option.some.inj h
    exact .confirm ht (Or.inr ⟨_, rfl⟩)
  · split at h
    · next hinsert =>
      obtain rfl := Option.some.inj h
      exact .insert ht hinsert (Or.inl rfl) (Or.inl rfl)
    · obtain rfl := Option.some.inj h
      exact .quiet ht (.of_none trivial rfl rfl)
  · split at h
    · next hinsert =>
      obtain rfl := Option.some.inj h
      exact .insert ht hinsert (Or.inr ⟨_, rfl⟩) (Or.inr ⟨_, rfl⟩)
    · obtain rfl := Option.some.inj h
      exact .quiet ht (.of_none trivial rfl rfl)
  · obtain rfl := Option.some.inj h
    exact .quiet ht ⟨trivial, fun id hid => hid, fun id hid => (nomatch hid)⟩
  -- the calls that failed
  iterate 4
    · obtain rfl := Option.some.inj h
      exact .quiet ht (.of_none trivial rfl rfl)
  · cases h

theorem resumeRetract_effect {s s' : State V} {t : ℕ} {callerId id reason : String}
    {pc : RetractPc} {a : Answer V} (ht : s.tasks t = some (.retract callerId id reason pc))
    (h : s.resumeRetract t callerId id reason pc a = some s') : Effect s (.resume t a) s' := by
  have hquiet : ∀ pc', Quiet s.claims (.retract callerId id reason pc)
      (.retract callerId id reason pc') := fun pc' => .of_none trivial rfl rfl
  unfold State.resumeRetract at h
  dsimp only at h
  split at h
  · split_ifs at h
    · obtain rfl := Option.some.inj h
      exact .quiet ht (hquiet _)
    · obtain rfl := Option.some.inj h
      exact .quiet ht (hquiet _)
  · obtain rfl := Option.some.inj h
    exact .retract ht (Or.inl rfl)
  · obtain rfl := Option.some.inj h
    exact .retract ht (Or.inr ⟨_, rfl⟩)
  · obtain rfl := Option.some.inj h
    exact .quiet ht (hquiet _)
  · obtain rfl := Option.some.inj h
    exact .quiet ht (hquiet _)
  · cases h

theorem step_effect {dot : V → V → ℚ} {s s' : State V} {a : Action V}
    (h : step dot s a = some s') : Effect s a s' := by
  cases a with
  | record callerId input =>
    obtain rfl := Option.some.inj h
    unfold begin
    split
    · exact .spawn (.of_none trivial rfl rfl) rfl
    · exact .spawn (.of_none trivial rfl rfl) rfl
  | retract callerId id reason =>
    simp only [step] at h
    split_ifs at h
    · obtain rfl := Option.some.inj h
      exact .spawn (.of_none trivial rfl rfl) rfl
    · obtain rfl := Option.some.inj h
      exact .spawn (.of_none trivial rfl rfl) rfl
  | resume t a =>
    simp only [step] at h
    split at h
    · next ht => exact resumeRecord_effect ht h
    · next ht => exact resumeRetract_effect ht h
    · cases h
  | setVector id vec =>
    obtain rfl := Option.some.inj h
    exact .setVector

structure Sound (s : State V) : Prop where
  chained : Chained s.claims
  tasks : ∀ t x, s.tasks t = some x → TaskSound s.claims x
  fresh : ∀ t, s.next ≤ t → s.tasks t = none

theorem Sound.empty : Sound (State.empty (V := V)) where
  chained := fun _ hc => nomatch hc
  tasks := fun _ _ hx => nomatch hx
  fresh := fun _ _ => rfl

theorem Sound.lt {s : State V} (h : Sound s) {t : ℕ} {x : Task V} (ht : s.tasks t = some x) :
    t < s.next := by
  by_contra hge
  exact absurd (ht.symm.trans (h.fresh t (not_lt.mp hge))) nofun

theorem tasks_goto {s : State V} {t j : ℕ} {x y : Task V} (h : (s.goto t y).tasks j = some x) :
    j = t ∧ x = y ∨ j ≠ t ∧ s.tasks j = some x := by
  by_cases hj : j = t
  · subst hj
    simp only [State.goto, Function.update_self, Option.some.injEq] at h
    exact Or.inl ⟨rfl, h.symm⟩
  · simp only [State.goto, Function.update_of_ne hj] at h
    exact Or.inr ⟨hj, h⟩

theorem Sound.goto {s s' : State V} (h : Sound s) {t : ℕ} {x y : Task V}
    (ht : s.tasks t = some x) (htasks : s'.tasks = s.tasks) (hnext : s'.next = s.next)
    (hchained : Chained s'.claims) (hkeeps : Keeps s.claims s'.claims)
    (hy : TaskSound s'.claims y) : Sound (s'.goto t y) where
  chained := hchained
  tasks := by
    intro j z hz
    rcases tasks_goto hz with ⟨-, rfl⟩ | ⟨-, hz⟩
    · exact hy
    · rw [htasks] at hz
      exact (h.tasks j z hz).keeps hkeeps
  fresh := by
    intro j hj
    have hge : s.next ≤ j := hnext ▸ hj
    have hlt := h.lt ht
    simp only [State.goto, Function.update_of_ne (hlt.trans_le hge).ne', htasks]
    exact h.fresh j hge

theorem Sound.spawn {s : State V} (h : Sound s) {x : Task V} (hx : TaskSound s.claims x) :
    Sound (s.spawn x) where
  chained := h.chained
  tasks := by
    intro j z hz
    rcases tasks_goto hz with ⟨-, rfl⟩ | ⟨-, hz⟩
    · exact hx
    · exact h.tasks j z hz
  fresh := by
    intro j hj
    have hlt : s.next < j := hj
    simp only [State.spawn, State.goto, Function.update_of_ne hlt.ne']
    exact h.fresh j hlt.le

theorem taskSound_written {T : Table (Claim.id (V := V))} {callerId : String} {input : ClaimInput}
    {source : Source} {id : String} {deduped : Bool} {suggested : List String} {pc : RecordPc V}
    (hpc : pc = written source id deduped suggested ∨ ∃ e, pc = .threw e) :
    TaskSound T (.record callerId input pc) := by
  obtain rfl | ⟨e, rfl⟩ := hpc
  · rcases written_cases source id deduped suggested with h | h <;> rw [h] <;> trivial
  · trivial

/-- The insert of a record keeps the chains, and every claim. -/
theorem insert_sound {s s' : State V} {callerId : String} {input : ClaimInput} {source : Source}
    {c : Claim V} {supersedes : Option String} {suggested : List String} (hc : Chained s.claims)
    (hsound : TaskSound s.claims
      (.record callerId input (.writing source (.insert c supersedes) suggested)))
    (h : insert s c source supersedes = .ok s') :
    Chained s'.claims ∧ Keeps s.claims s'.claims := by
  obtain ⟨-, hby, htargets⟩ := hsound
  obtain ⟨hnew, -, -, -, ⟨-, hclaims⟩ | ⟨target, htarget, hclaims⟩⟩ := insert_eq_ok h
  · rw [hclaims]
    exact ⟨hc.insertIgnore hnew hby, .insertIgnore s.claims c⟩
  · rw [hclaims]
    exact ⟨(hc.insertIgnore hnew hby).superseding hnew (htargets target htarget),
      (Keeps.insertIgnore s.claims c).trans (.supersede _ target c.id c.createdAt)⟩

theorem Sound.effect {s s' : State V} {a : Action V} (h : Sound s) (he : Effect s a s') :
    Sound s' := by
  cases he with
  | spawn hx hnew => exact h.spawn hx.sound
  | quiet ht hq => exact h.goto ht rfl rfl h.chained (.refl _) hq.sound
  | confirm ht hpc =>
    refine h.goto ht rfl rfl ?_ ?_ (taskSound_written hpc)
    · apply h.chained.updateWhere <;> exact fun _ => rfl
    · apply Keeps.updateWhere <;> exact fun _ => rfl
  | insert ht hinsert hpc ha =>
    obtain ⟨hchained, hkeeps⟩ := insert_sound h.chained (h.tasks _ _ ht) hinsert
    obtain ⟨-, -, hnext, htasks, -⟩ := insert_eq_ok hinsert
    exact h.goto ht htasks hnext hchained hkeeps (taskSound_written hpc)
  | retract ht ha =>
    refine h.goto ht rfl rfl ?_ ?_ trivial
    · apply h.chained.updateWhere <;> exact fun _ => rfl
    · apply Keeps.updateWhere <;> exact fun _ => rfl
  | setVector =>
    refine ⟨?_, fun t x hx => (h.tasks t x hx).keeps ?_, h.fresh⟩
    · apply h.chained.updateWhere <;> exact fun _ => rfl
    · apply Keeps.updateWhere <;> exact fun _ => rfl

/-- The claim that a step takes out of the current ones. -/
def unsettles (s : State V) : Action V → Option String
  | .resume t a =>
    match s.tasks t, a with
    | some (.record _ _ (.writing source (.insert c supersedes) _)), .ok
    | some (.record _ _ (.writing source (.insert c supersedes) _)), .lost _ =>
      match insert s c source supersedes with
      | .ok _ => given supersedes
      | .error _ => none
    | some (.retract _ id _ (.retracting _)), .ok
    | some (.retract _ id _ (.retracting _)), .lost _ => some id
    | _, _ => none
  | _ => none

/-- A claim is superseded or retracted only while no record is about to confirm it. -/
def Undisturbed (s : State V) (a : Action V) : Prop :=
  ∀ id ∈ unsettles s a, ∀ t < s.next, (s.tasks t).bind confirming ≠ some id

instance (s : State V) (a : Action V) : Decidable (Undisturbed s a) :=
  inferInstanceAs
    (Decidable (∀ id ∈ unsettles s a, ∀ t < s.next, (s.tasks t).bind confirming ≠ some id))

def Settled (s : State V) : Prop :=
  ∀ t x id, s.tasks t = some x → confirming x = some id → Current s.claims id

theorem Settled.goto {s s' : State V} (h : Settled s) {t : ℕ} {y : Task V}
    (htasks : s'.tasks = s.tasks)
    (hcur : ∀ j x id, s.tasks j = some x → confirming x = some id → Current s.claims id →
      Current s'.claims id)
    (hy : ∀ id, confirming y = some id → Current s'.claims id) : Settled (s'.goto t y) := by
  intro j x id hx hid
  rcases tasks_goto hx with ⟨-, rfl⟩ | ⟨-, hx⟩
  · exact hy id hid
  · rw [htasks] at hx
    exact hcur j x id hx hid (h j x id hx hid)

theorem confirming_written {callerId : String} {input : ClaimInput}
    {source : Source} {id : String} {deduped : Bool} {suggested : List String} {pc : RecordPc V}
    (hpc : pc = written source id deduped suggested ∨ ∃ e, pc = .threw e) :
    confirming (.record callerId input pc) = none := by
  obtain rfl | ⟨e, rfl⟩ := hpc
  · rcases written_cases source id deduped suggested with h | h <;> rw [h] <;> rfl
  · rfl

theorem Settled.effect {s s' : State V} {a : Action V} (h : Settled s) (hs : Sound s)
    (hund : Undisturbed s a) (he : Effect s a s') : Settled s' := by
  cases he with
  | spawn hx hnew =>
    intro j x id hxj hid
    rcases tasks_goto hxj with ⟨-, rfl⟩ | ⟨-, hxj⟩
    · exact hx.confirming id hid
    · exact h j x id hxj hid
  | quiet ht hq => exact h.goto rfl (fun _ _ _ _ _ hc => hc) hq.confirming
  | confirm ht hpc =>
    refine h.goto rfl (fun _ _ _ _ _ hc => ?_) fun id hid => ?_
    · apply hc.updateWhere
      · exact fun _ => rfl
      · exact fun _ _ _ => rfl
    · rw [confirming_written hpc] at hid
      cases hid
  | @insert t a callerId input source c supersedes suggested pc s' ht hinsert hpc ha =>
    obtain ⟨-, -, -, htasks, hclaims⟩ := insert_eq_ok hinsert
    have hout : unsettles s (.resume t a) = given supersedes := by
      obtain rfl | ⟨e, rfl⟩ := ha <;> simp [unsettles, ht, hinsert]
    refine h.goto htasks (fun j x id hx hid hc => ?_) fun id hid => ?_
    · obtain ⟨-, hclaims⟩ | ⟨target, htarget, hclaims⟩ := hclaims
      · rw [hclaims]
        exact hc.insertIgnore c
      · rw [hclaims]
        refine (hc.insertIgnore c).supersede ?_
        rintro rfl
        refine hund target (hout.trans htarget) j (hs.lt hx) ?_
        rw [hx]
        exact hid
    · rw [confirming_written hpc] at hid
      cases hid
  | @retract t a callerId id reason now pc ht ha =>
    have hout : unsettles s (.resume t a) = some id := by
      obtain rfl | ⟨e, rfl⟩ := ha <;> simp [unsettles, ht]
    refine h.goto rfl (fun j x dup hx hid hc => ?_) fun id hid => nomatch hid
    apply hc.updateWhere
    · exact fun _ => rfl
    · intro c hdup hp
      have heq : c.id = id := by simpa using hp
      refine absurd ?_ (hund id hout j (hs.lt hx))
      rw [hx, ← heq, hdup]
      exact hid
  | setVector =>
    intro j x id hx hid
    apply (h j x id hx hid).updateWhere
    · exact fun _ => rfl
    · exact fun _ _ _ => rfl

/-- Some step of the run was the store call of record `t`, and `id` was current after it. -/
def CommittedCurrent (dot : V → V → ℚ) (as : List (Action V)) (t : ℕ) (id : String) : Prop :=
  ∃ as₁ a as₂ u u' callerId input source w suggested, as = as₁ ++ .resume t a :: as₂ ∧
    run (step dot) .empty as₁ = some u ∧ step dot u (.resume t a) = some u' ∧
    u.tasks t = some (.record callerId input (.writing source w suggested)) ∧
    (u'.tasks t).bind answered = some id ∧ Current u'.claims id

theorem CommittedCurrent.append {dot : V → V → ℚ} {as : List (Action V)} {t : ℕ} {id : String}
    (h : CommittedCurrent dot as t id) (b : Action V) : CommittedCurrent dot (as ++ [b]) t id := by
  obtain ⟨as₁, a, as₂, u, u', callerId, input, source, w, suggested, rfl, h⟩ := h
  exact ⟨as₁, a, as₂ ++ [b], u, u', callerId, input, source, w, suggested, by simp, h⟩

theorem answered_written {callerId : String} {input : ClaimInput} {source : Source}
    {id id' : String} {deduped : Bool} {suggested : List String} {pc : RecordPc V}
    (hpc : pc = written source id deduped suggested ∨ ∃ e, pc = .threw e)
    (h : answered (.record callerId input pc) = some id') : id' = id := by
  obtain rfl | ⟨e, rfl⟩ := hpc
  · rcases written_cases (V := V) source id deduped suggested with hw | hw
    · rw [hw] at h
      exact (Option.some.inj h).symm
    · rw [hw] at h
      exact (Option.some.inj h).symm
  · cases h

/-- The claim that an insert adds is current, since it is not the one it supersedes. -/
theorem insert_current {s s' : State V} {callerId : String} {input : ClaimInput} {source : Source}
    {c : Claim V} {supersedes : Option String} {suggested : List String}
    (hsound : TaskSound s.claims
      (.record callerId input (.writing source (.insert c supersedes) suggested)))
    (h : insert s c source supersedes = .ok s') : Current s'.claims c.id := by
  obtain ⟨hcur, -, htargets⟩ := hsound
  obtain ⟨hnew, -, -, -, hclaims⟩ := insert_eq_ok h
  have hlast : Current (s.claims.insertIgnore c) c.id :=
    ⟨c, by rw [rows_insertIgnore hnew]; simp, rfl, hcur⟩
  obtain ⟨-, hclaims⟩ | ⟨target, htarget, hclaims⟩ := hclaims
  · rwa [hclaims]
  · rw [hclaims]
    refine hlast.supersede ?_
    rintro rfl
    obtain ⟨d, hd, hid, -⟩ := htargets c.id htarget
    exact Table.get_eq_none.mp hnew d hd hid

/-- Every record that has written wrote to a current claim. -/
def Logged (dot : V → V → ℚ) (as : List (Action V)) (s : State V) : Prop :=
  ∀ t x id, s.tasks t = some x → answered x = some id → CommittedCurrent dot as t id

theorem Logged.effect {dot : V → V → ℚ} {as : List (Action V)} {s s' : State V} {a : Action V}
    (h : Logged dot as s) (hrun : run (step dot) .empty as = some s) (hs : Sound s)
    (hset : Settled s) (hstep : step dot s a = some s') : Logged dot (as ++ [a]) s' := by
  have hold : ∀ t x id, s.tasks t = some x → answered x = some id →
      CommittedCurrent dot (as ++ [a]) t id := fun t x id hx hid => (h t x id hx hid).append a
  have he := step_effect hstep
  cases he with
  | spawn hx hnew =>
    intro j x id hxj hid
    rcases tasks_goto hxj with ⟨-, rfl⟩ | ⟨-, hxj⟩
    · rw [hnew] at hid
      cases hid
    · exact hold j x id hxj hid
  | quiet ht hq =>
    intro j x id hxj hid
    rcases tasks_goto hxj with ⟨rfl, rfl⟩ | ⟨-, hxj⟩
    · exact hold _ _ id ht (hq.answered id hid)
    · exact hold j x id hxj hid
  | confirm ht hpc =>
    intro j x id hxj hid
    rcases tasks_goto hxj with ⟨rfl, rfl⟩ | ⟨-, hxj⟩
    · refine ⟨as, _, [], s, _, _, _, _, _, _, rfl, hrun, hstep, ht, ?_, ?_⟩
      · rw [hxj]
        exact hid
      · obtain rfl := answered_written hpc hid
        apply (hset _ _ _ ht rfl).updateWhere
        · exact fun _ => rfl
        · exact fun _ _ _ => rfl
    · exact hold j x id hxj hid
  | insert ht hinsert hpc ha =>
    intro j x id hxj hid
    obtain ⟨-, -, -, htasks, -⟩ := insert_eq_ok hinsert
    rcases tasks_goto hxj with ⟨rfl, rfl⟩ | ⟨-, hxj⟩
    · refine ⟨as, _, [], s, _, _, _, _, _, _, rfl, hrun, hstep, ht, ?_, ?_⟩
      · rw [hxj]
        exact hid
      · obtain rfl := answered_written hpc hid
        have hcur := insert_current (hs.tasks _ _ ht) hinsert
        exact hcur
    · rw [htasks] at hxj
      exact hold j x id hxj hid
  | retract ht ha =>
    intro j x id hxj hid
    rcases tasks_goto hxj with ⟨-, rfl⟩ | ⟨-, hxj⟩
    · cases hid
    · exact hold j x id hxj hid
  | setVector => exact hold

theorem reachable_sound {dot : V → V → ℚ} {as : List (Action V)} {s : State V}
    (hr : run (step dot) .empty as = some s) : Sound s :=
  run_invariant (fun _ _ _ h hs => h.effect (step_effect hs)) .empty hr

theorem reachable_logged {dot : V → V → ℚ} {as : List (Action V)} {s : State V}
    (hr : run (step dot) .empty as = some s) (hok : Along (step dot) Undisturbed .empty as) :
    Settled s ∧ Logged dot as s := by
  refine run_invariant_history_along (I := fun as s => Settled s ∧ Logged dot as s)
    ⟨?_, ?_⟩ ?_ hr hok
  · intro t x id hx
    cases hx
  · intro t x id hx
    cases hx
  intro as s a t hrun h hund hs
  have hsound := reachable_sound hrun
  exact ⟨h.1.effect hsound hund (step_effect hs), h.2.effect hrun hsound h.1 hs⟩

/-- Along a chain the claims get later, so it repeats none. -/
theorem Chained.nodup {T : Table (Claim.id (V := V))} (h : Chained T) {chain : List (Claim V)}
    (hmem : ∀ c ∈ chain, c ∈ T.rows)
    (hchain : chain.IsChain fun c d => c.supersededBy = some d.id) :
    chain.Nodup ∧ chain.length ≤ T.rows.length := by
  let place := fun c : Claim V => (T.rows.map Claim.id).idxOf c.id
  have hlt : chain.IsChain fun c d => place c < place d := by
    refine hchain.imp_of_mem_imp ?_
    intro c d hc hd hby
    exact (h c (hmem c hc) d.id hby).1
  have hpair : chain.Pairwise fun c d => place c < place d :=
    List.isChain_iff_pairwise.mp hlt
  have hnodup : chain.Nodup := by
    refine hpair.imp ?_
    rintro c d hcd rfl
    exact lt_irrefl _ hcd
  exact ⟨hnodup, (List.subperm_of_subset hnodup hmem).length_le⟩

/-- The confirmations and the sources of a claim. -/
def standing (s : State V) (id : String) : Option ℕ × List SourceRow :=
  ((s.claims.get id).map Claim.confirmations, s.sources.filter fun r => r.claimId = id)

theorem standing_confirm (s : State V) {id other : String} (source : Source) (now : ℤ)
    (hne : other ≠ id) : standing (confirm s id source now) other = standing s other := by
  unfold standing confirm
  simp only [Table.get_updateWhere, List.filter_append, Option.map_map]
  congr 1
  · refine Option.map_congr fun c hc => ?_
    have hid : c.id ≠ id := (Table.get_eq_some.mp hc).2 ▸ hne
    simp [hid]
  · simp [hne.symm]

theorem standing_insert {s s' : State V} {c : Claim V} {source : Source}
    {supersedes : Option String} (h : insert s c source supersedes = .ok s') {other : String}
    (hne : other ≠ c.id) : standing s' other = standing s other := by
  obtain ⟨-, hsources, -, -, hclaims⟩ := insert_eq_ok h
  have hget : (s.claims.insertIgnore c).get other = s.claims.get other := by
    rw [Table.get_insertIgnore, if_neg fun h => hne h.1]
  unfold standing
  rw [hsources, List.filter_append]
  congr 1
  · obtain ⟨-, hclaims⟩ | ⟨target, -, hclaims⟩ := hclaims
    · rw [hclaims, hget]
    · rw [hclaims, supersede, Table.get_updateWhere, hget, Option.map_map]
      refine Option.map_congr fun d _ => ?_
      dsimp only [Function.comp]
      split_ifs <;> rfl
  · simp [hne.symm]

/-- A private record merges into a claim of its own workspace, or inserts one. -/
theorem standing_private {s s' : State V} {t : ℕ} {a : Answer V} {callerId : String}
    {input : ClaimInput} {pc : RecordPc V} (hs : Sound s) (he : Effect s (.resume t a) s')
    (ht : s.tasks t = some (.record callerId input pc)) (hpriv : input.visibility = .priv)
    {c : Claim V} (hc : c ∈ s.claims.rows) (hother : c.workspaceId ≠ callerId) :
    standing s' c.id = standing s c.id := by
  cases he with
  | spawn hx hnew => rfl
  | quiet ht' hq => rfl
  | confirm ht' hpc =>
    obtain ⟨rfl, rfl, rfl⟩ : _ ∧ _ ∧ _ := by simpa using ht.symm.trans ht'
    obtain ⟨d, hd, rfl, -, hown⟩ := hs.tasks _ _ ht'
    refine standing_confirm s _ _ fun hid => hother ?_
    rw [List.inj_on_of_nodup_map s.claims.nodup hc hd hid]
    exact hown hpriv
  | insert ht' hinsert hpc ha =>
    have hnew := (insert_eq_ok hinsert).1
    exact standing_insert hinsert (Table.get_eq_none.mp hnew c hc)
  | retract ht' ha => exact absurd (ht.symm.trans ht') (by simp)

/-- Where claims are superseded and retracted only while no record is about to confirm them, every
record that returns wrote to a claim that was current then. In every run, the claims that supersede
one another form finite chains, which stay fleet-visible, and a private record leaves the claims of
the other workspaces alone. -/
theorem recorded_not_lost (dot : V → V → ℚ) {as : List (Action V)} {s : State V}
    (hr : run (step dot) .empty as = some s) :
    (Along (step dot) Undisturbed .empty as → ∀ t callerId input id deduped suggested,
      s.tasks t = some (.record callerId input (.returned id deduped suggested)) →
        CommittedCurrent dot as t id) ∧
    (∀ chain : List (Claim V), (∀ c ∈ chain, c ∈ s.claims.rows) →
      chain.IsChain (fun c d => c.supersededBy = some d.id) →
        chain.Nodup ∧ chain.length ≤ s.claims.rows.length) ∧
    (∀ c ∈ s.claims.rows, ∀ id, c.supersededBy = some id →
      ∃ d ∈ s.claims.rows, d.id = id ∧ (c.visibility = .fleet → d.visibility = .fleet)) ∧
    (∀ as₁ t a as₂ u u' callerId input pc, as = as₁ ++ .resume t a :: as₂ →
      run (step dot) .empty as₁ = some u → step dot u (.resume t a) = some u' →
      u.tasks t = some (.record callerId input pc) → input.visibility = .priv →
        ∀ c ∈ u.claims.rows, c.workspaceId ≠ callerId → standing u' c.id = standing u c.id) := by
  have hsound := reachable_sound hr
  refine ⟨?_, ?_, ?_, ?_⟩
  · intro hok t callerId input id deduped suggested ht
    exact (reachable_logged hr hok).2 t _ id ht rfl
  · intro chain hmem hchain
    exact hsound.chained.nodup hmem hchain
  · intro c hc id hid
    exact (hsound.chained c hc id hid).2
  · intro as₁ t a as₂ u u' callerId input pc _ hu hstep ht hpriv c hc hother
    exact standing_private (reachable_sound hu) (step_effect hstep) ht hpriv hc hother

def exAgain : ClaimInput := ⟨"it listens on 8080", .fact, ["ports"], [], .fleet, none, none⟩

/-- One workspace records a claim, another one the same again. -/
def exRecordTwice : List (Action Unit) :=
  [.record "a" ⟨"the port is 8080", .fact, ["ports"], [], .fleet, none, none⟩,
    .resume 0 (.vec (some ())), .resume 0 (.now 1 "c1"), .resume 0 .ok,
    .record "b" exAgain,
    .resume 1 (.vec (some ())), .resume 1 (.now 2 "c2")]

def exDot (_ _ : Unit) : ℚ := 1

theorem recorded_not_lost_confirmed :
    ((run (step exDot) .empty (exRecordTwice ++ [.resume 1 .ok])).bind fun s => s.tasks 1) =
      some (.record "b" exAgain (.returned "c1" true [])) ∧
    CommittedCurrent exDot (exRecordTwice ++ [.resume 1 .ok]) 1 "c1" := by
  have hret : ((run (step exDot) .empty (exRecordTwice ++ [.resume 1 .ok])).bind fun s =>
      s.tasks 1) = some (.record "b" exAgain (.returned "c1" true [])) := by decide +kernel
  obtain ⟨s, hs, ht⟩ := Option.bind_eq_some_iff.mp hret
  exact ⟨hret, (recorded_not_lost exDot hs).1 (by decide +kernel) 1 _ _ _ _ _ ht⟩

/-- The claim is retracted between the read of the second record and its write. -/
def exRetracted : List (Action Unit) :=
  exRecordTwice ++ [.retract "a" "c1" "moved", .resume 2 (.now 3 ""), .resume 2 .ok, .resume 1 .ok]

/-- Step `n` of the run is the store call of record `t`, and `id` is current after it. -/
def committedAt (dot : V → V → ℚ) (as : List (Action V)) (t : ℕ) (id : String) (n : ℕ) : Bool :=
  match run (step dot) .empty (as.take n), run (step dot) .empty (as.take (n + 1)) with
  | some u, some u' =>
    match u.tasks t with
    | some (.record _ _ (.writing _ _ _)) =>
      decide ((u'.tasks t).bind answered = some id) &&
        u'.claims.rows.any fun c => decide (c.id = id) && decide (c.status = .current)
    | _ => false
  | _, _ => false

theorem CommittedCurrent.at {dot : V → V → ℚ} {as : List (Action V)} {t : ℕ} {id : String}
    (h : CommittedCurrent dot as t id) : ∃ n < as.length, committedAt dot as t id n = true := by
  obtain ⟨as₁, a, as₂, u, u', callerId, input, source, w, suggested, rfl, hu, hstep, ht, hans,
    hcur⟩ := h
  have hnext : run (step dot) .empty (as₁ ++ [.resume t a]) = some u' := by
    refine run_append.mpr ⟨u, hu, ?_⟩
    simp only [run, hstep]
  have htake : (as₁ ++ .resume t a :: as₂).take (as₁.length + 1) = as₁ ++ [.resume t a] := by
    simp [List.take_append]
  refine ⟨as₁.length, by simp, ?_⟩
  unfold committedAt
  rw [List.take_left, htake, hu, hnext]
  dsimp only
  rw [ht, hans]
  simpa [Current] using hcur

theorem recorded_lost : ∃ s, run (step exDot) .empty exRetracted = some s ∧
    s.tasks 1 = some (.record "b" exAgain (.returned "c1" true [])) ∧
    ¬ CommittedCurrent exDot exRetracted 1 "c1" := by
  have hret : ((run (step exDot) .empty exRetracted).bind fun s => s.tasks 1) =
      some (.record "b" exAgain (.returned "c1" true [])) := by decide +kernel
  obtain ⟨s, hs, ht⟩ := Option.bind_eq_some_iff.mp hret
  refine ⟨s, hs, ht, fun h => ?_⟩
  obtain ⟨n, hn, hat⟩ := h.at
  have hnever : ∀ n < exRetracted.length, committedAt exDot exRetracted 1 "c1" n = false := by
    decide +kernel
  exact absurd (hat.symm.trans (hnever n hn)) nofun

end ClaudeFleet.ClaimService
