import ClaudeFleet.Vault

/-! When a stored secret stays. The copy in memory is the file's content except while a write is under
way; what breaks that is a read that fails, a write that fails, and a `load` that assigns the copy
after another call has changed it. -/
namespace ClaudeFleet.Vault
open Transition

/-- The call changes this secret, or removes it. -/
def Op.Covers (workspaceId key : String) : Op → Prop
  | .setSecret w k _ => w = workspaceId ∧ k = key
  | .deleteSecret w k => w = workspaceId ∧ k = key
  | .deleteAllForWorkspace w => w = workspaceId
  | _ => False

theorem secret_putBag (store : Store) (w : String) (bag : Bag) (workspaceId key : String) :
    (store.putBag w bag).secret workspaceId key =
      if workspaceId = w then (bag.get key).map Prod.snd else store.secret workspaceId key := by
  unfold Store.secret Store.putBag
  rw [Table.get_upsert]
  split_ifs with h
  · cases store.get workspaceId <;> rfl
  · rfl

theorem secret_dropBag (store : Store) (w : String) {workspaceId : String} (key : String)
    (h : workspaceId ≠ w) :
    (store.dropBag w).secret workspaceId key = store.secret workspaceId key := by
  unfold Store.secret Store.dropBag
  rw [Table.get_deleteWhere]
  cases hb : store.get workspaceId with
  | none => rfl
  | some b =>
    have hid : b.1 = workspaceId := (Table.get_eq_some.mp hb).2
    have hne : b.1 ≠ w := hid ▸ h
    simp [Option.filter, hne]

theorem secret_empty (workspaceId key : String) :
    Store.secret .empty workspaceId key = none := rfl

theorem next_setSecret {store next : Store} {workspaceId key value : String}
    (h : (Op.setSecret workspaceId key value).next store = some next) :
    next.secret workspaceId key = some value := by
  obtain rfl := Option.some.inj h
  rw [secret_putBag, if_pos rfl, Table.get_upsert, if_pos rfl]
  cases ((store.get workspaceId).map Prod.snd |>.getD .empty).get key <;> rfl

/-- A call leaves the secrets alone that it does not cover. -/
theorem next_secret {store next : Store} {op : Op} {workspaceId key : String}
    (h : op.next store = some next) (hcovers : ¬ op.Covers workspaceId key) :
    next.secret workspaceId key = store.secret workspaceId key := by
  cases op with
  | getSecret w k => cases h
  | listKeys w => cases h
  | setSecret w k v =>
    obtain rfl := Option.some.inj h
    rw [secret_putBag]
    split_ifs with hw
    · subst hw
      have hk : key ≠ k := fun hk => hcovers ⟨rfl, hk.symm⟩
      rw [Table.get_upsert, if_neg hk]
      unfold Store.secret
      cases store.get workspaceId <;> rfl
    · rfl
  | deleteSecret w k =>
    simp only [Op.next] at h
    split at h
    · cases h
    · next b hb =>
      split_ifs at h with hkey hempty
      · obtain rfl := Option.some.inj h
        by_cases hw : workspaceId = w
        · -- the bag had no other secret
          subst hw
          have hk : key ≠ k := fun hk => hcovers ⟨rfl, hk.symm⟩
          have hgone : (store.dropBag workspaceId).secret workspaceId key = none := by
            unfold Store.secret Store.dropBag
            rw [Table.get_deleteWhere, hb]
            have hid : b.1 = workspaceId := (Table.get_eq_some.mp hb).2
            simp [Option.filter, hid]
          have hnone : b.2.get key = none := by
            refine Table.get_eq_none.mpr fun r hr hkr => ?_
            have hmem : r ∈ (b.2.deleteWhere fun r => r.1 = k).rows := by
              refine Table.mem_deleteWhere.mpr ⟨hr, ?_⟩
              simpa [hkr] using hk
            rw [hempty] at hmem
            cases hmem
          rw [hgone, Store.secret, hb, Option.bind_some, hnone]
          rfl
        · exact secret_dropBag store w key hw
      · obtain rfl := Option.some.inj h
        rw [secret_putBag]
        split_ifs with hw
        · subst hw
          have hk : key ≠ k := fun hk => hcovers ⟨rfl, hk.symm⟩
          rw [Store.secret, hb, Option.bind_some, Table.get_deleteWhere]
          cases hr : b.2.get key with
          | none => rfl
          | some r =>
            have hkr : r.1 = key := (Table.get_eq_some.mp hr).2
            have hne : r.1 ≠ k := hkr ▸ hk
            simp [Option.filter, hne]
        · rfl
  | deleteAllForWorkspace w =>
    simp only [Op.next] at h
    split_ifs at h
    obtain rfl := Option.some.inj h
    exact secret_dropBag store w key fun hw => hcovers hw.symm

/-- No read or write fails, and a `load` that read the file does not replace a copy that has become
another. A file that is missing reads the same as one that cannot be read. -/
def CalmAt (s : State) (a : Answer) : Task → Prop
  | ⟨_, .reading⟩ => a = .ok ∨ s.file = none
  | ⟨_, .arrived store⟩ => s.cache = none ∨ s.cache = some store
  | ⟨op, .loaded store⟩ => a = .ok ∨ op.next store = none
  | ⟨_, .writing _⟩ => a = .ok
  | _ => True

instance (s : State) (a : Answer) : (x : Task) → Decidable (CalmAt s a x)
  | ⟨_, .reading⟩ => inferInstanceAs (Decidable (a = .ok ∨ s.file = none))
  | ⟨_, .arrived store⟩ => inferInstanceAs (Decidable (s.cache = none ∨ s.cache = some store))
  | ⟨op, .loaded store⟩ => inferInstanceAs (Decidable (a = .ok ∨ op.next store = none))
  | ⟨_, .writing _⟩ => inferInstanceAs (Decidable (a = .ok))
  | ⟨_, .waiting⟩ => instDecidableTrue
  | ⟨_, .wrote _⟩ => instDecidableTrue
  | ⟨_, .resolved _⟩ => instDecidableTrue
  | ⟨_, .rejected _⟩ => instDecidableTrue
  | ⟨_, .killed⟩ => instDecidableTrue

def Calm (s : State) : Action → Prop
  | .resume t a => ∀ x ∈ s.tasks t, CalmAt s a x
  | .call _ _ => True
  | .restart => True

instance (s : State) : (a : Action) → Decidable (Calm s a)
  | .resume t a => inferInstanceAs (Decidable (∀ x ∈ s.tasks t, CalmAt s a x))
  | .call _ _ => instDecidableTrue
  | .restart => instDecidableTrue

/-- The call runs, and is past the wait for the lock. -/
def Pc.active : Pc → Bool
  | .reading => true
  | .arrived _ => true
  | .loaded _ => true
  | .writing _ => true
  | .wrote _ => true
  | _ => false

/-- What a call in progress knows of the copy and of the file. -/
def PcSound (s : State) (op : Op) : Pc → Prop
  | .arrived store => s.cache = none → store = s.onDisk
  | .loaded store => s.cache ≠ none ∧ (op.locked = true → s.cache = some store ∧ store = s.onDisk)
  | .writing next =>
    op.locked = true ∧ s.cache = some next ∧ ∃ store, op.next store = some next
  | .wrote next =>
    op.locked = true ∧ s.cache = some next ∧ s.file = some next ∧
      ∃ store, op.next store = some next
  | _ => True

structure Sound (s : State) : Prop where
  fresh : ∀ t, s.next ≤ t → s.tasks t = none
  calls : ∀ t op pc, s.tasks t = some ⟨op, pc⟩ → PcSound s op pc
  head : ∀ t op pc, s.tasks t = some ⟨op, pc⟩ → op.locked = true → pc.active = true →
    s.writeChain.head? = some t
  quiet : (∀ t op next, s.tasks t ≠ some ⟨op, .writing next⟩) →
    ∀ c, s.cache = some c → c = s.onDisk

theorem Sound.start (file : Option Store) : Sound (State.start file) where
  fresh := fun _ _ => rfl
  calls := fun _ _ _ h => nomatch h
  head := fun _ _ _ h => nomatch h
  quiet := fun _ _ h => nomatch h

theorem tasks_goto {s : State} {t j : ℕ} {op : Op} {pc : Pc} {x : Task}
    (h : (s.goto t op pc).tasks j = some x) :
    j = t ∧ x = ⟨op, pc⟩ ∨ j ≠ t ∧ s.tasks j = some x := by
  by_cases hj : j = t
  · subst hj
    simp only [State.goto, Function.update_self, Option.some.injEq] at h
    exact Or.inl ⟨rfl, h.symm⟩
  · simp only [State.goto, Function.update_of_ne hj] at h
    exact Or.inr ⟨hj, h⟩

theorem Sound.lt {s : State} (h : Sound s) {t : ℕ} {x : Task} (ht : s.tasks t = some x) :
    t < s.next := by
  by_contra hge
  exact absurd (ht.symm.trans (h.fresh t (not_lt.mp hge))) nofun

theorem PcSound.of_eq {s s' : State} {op : Op} {pc : Pc} (h : PcSound s op pc)
    (hcache : s'.cache = s.cache) (hfile : s'.file = s.file) : PcSound s' op pc := by
  have hdisk : s'.onDisk = s.onDisk := by rw [State.onDisk, State.onDisk, hfile]
  cases pc with
  | arrived store => rwa [PcSound, hcache, hdisk]
  | loaded store => rwa [PcSound, hcache, hdisk]
  | writing next => rwa [PcSound, hcache]
  | wrote next => rwa [PcSound, hcache, hfile]
  | _ => trivial

/-- While one call holds the lock, the others depend on the copy only in that there is one. -/
theorem Sound.others {s s' : State} (h : Sound s) {t : ℕ} (hhead : s.writeChain.head? = some t)
    (hcache : s'.cache ≠ none) {j : ℕ} (hj : j ≠ t) {op : Op} {pc : Pc}
    (htask : s.tasks j = some ⟨op, pc⟩) : PcSound s' op pc := by
  have hfree : op.locked = true → pc.active = true → False := by
    intro hlocked hactive
    have := h.head j op pc htask hlocked hactive
    exact hj (Option.some.inj (this.symm.trans hhead))
  have hpc := h.calls j op pc htask
  cases pc with
  | arrived store => exact fun hnone => absurd hnone hcache
  | loaded store => exact ⟨hcache, fun hlocked => (hfree hlocked rfl).elim⟩
  | writing next => exact (hfree hpc.1 rfl).elim
  | wrote next => exact (hfree hpc.1 rfl).elim
  | _ => trivial

/-- One call moves on. -/
theorem Sound.move {s s' : State} (h : Sound s) {t : ℕ} {op : Op} {pc pc' : Pc}
    (ht : s.tasks t = some ⟨op, pc⟩)
    (htasks : s'.tasks = Function.update s.tasks t (some ⟨op, pc'⟩)) (hnext : s'.next = s.next)
    (hself : PcSound s' op pc')
    (hactive : op.locked = true → pc'.active = true → s'.writeChain.head? = some t)
    (hhead : ∀ j ≠ t, s.writeChain.head? = some j → s'.writeChain.head? = some j)
    (hothers : ∀ j ≠ t, ∀ op pc, s.tasks j = some ⟨op, pc⟩ → PcSound s' op pc)
    (hquiet : (∀ t op next, s'.tasks t ≠ some ⟨op, .writing next⟩) →
      ∀ c, s'.cache = some c → c = s'.onDisk) : Sound s' := by
  have hgoto : ∀ j x, s'.tasks j = some x → j = t ∧ x = ⟨op, pc'⟩ ∨ j ≠ t ∧ s.tasks j = some x := by
    intro j x hj
    rw [htasks] at hj
    exact tasks_goto (s := s) hj
  refine ⟨?_, ?_, ?_, hquiet⟩
  · intro j hj
    have hge : s.next ≤ j := hnext ▸ hj
    rw [htasks, Function.update_of_ne ((h.lt ht).trans_le hge).ne']
    exact h.fresh j hge
  · intro j op' pc'' hj
    rcases hgoto j _ hj with ⟨-, heq⟩ | ⟨hne, hj⟩
    · cases heq
      exact hself
    · exact hothers j hne op' pc'' hj
  · intro j op' pc'' hj hlocked hact
    rcases hgoto j _ hj with ⟨rfl, heq⟩ | ⟨hne, hj⟩
    · cases heq
      exact hactive hlocked hact
    · exact hhead j hne (h.head j op' pc'' hj hlocked hact)

theorem head_settle {l : List ℕ} {t j : ℕ} (hne : j ≠ t) (h : l.head? = some j) :
    (l.filter fun i => i ≠ t).head? = some j := by
  cases l with
  | nil => cases h
  | cons i l =>
    obtain rfl := Option.some.inj h
    simp [hne]

theorem not_writing_of_move {s : State} {t : ℕ} {op : Op} {pc pc' : Pc}
    (ht : s.tasks t = some ⟨op, pc⟩) (hpc : ∀ next, pc ≠ .writing next)
    (hnot : ∀ j o next, (s.goto t op pc').tasks j ≠ some ⟨o, .writing next⟩) (j : ℕ) (o : Op)
    (next : Store) : s.tasks j ≠ some ⟨o, .writing next⟩ := by
  intro hj
  by_cases hjt : j = t
  · subst hjt
    have heq := Option.some.inj (ht.symm.trans hj)
    cases heq
    exact hpc next rfl
  · refine hnot j o next ?_
    simpa only [State.goto, Function.update_of_ne hjt] using hj

/-- A call that was not writing moves on without touching the copy or the file. -/
theorem Sound.goto {s : State} (h : Sound s) {t : ℕ} {op : Op} {pc pc' : Pc}
    (ht : s.tasks t = some ⟨op, pc⟩) (hpc : ∀ next, pc ≠ .writing next) (hself : PcSound s op pc')
    (hactive : op.locked = true → pc'.active = true → s.writeChain.head? = some t) :
    Sound (s.goto t op pc') :=
  h.move ht rfl rfl (hself.of_eq rfl rfl) hactive (fun _ _ hj => hj)
    (fun j _ op pc hj => (h.calls j op pc hj).of_eq rfl rfl)
    fun hnot c hc => h.quiet (not_writing_of_move ht hpc hnot) c hc

/-- A call that was not writing settles. -/
theorem Sound.settle {s : State} (h : Sound s) {t : ℕ} {op : Op} {pc pc' : Pc}
    (ht : s.tasks t = some ⟨op, pc⟩) (hpc : ∀ next, pc ≠ .writing next) (hself : PcSound s op pc')
    (hdone : pc'.active = false) : Sound (s.settle t op pc') :=
  h.move ht rfl rfl (hself.of_eq rfl rfl) (fun _ hact => by rw [hdone] at hact; cases hact)
    (fun _ hne hj => head_settle hne hj)
    (fun j _ op pc hj => (h.calls j op pc hj).of_eq rfl rfl)
    fun hnot c hc => h.quiet (not_writing_of_move ht hpc hnot) c hc

theorem Sound.spawn {s s' : State} (h : Sound s) {op : Op} {pc : Pc}
    (htasks : s'.tasks = (s.goto s.next op pc).tasks) (hnext : s'.next = s.next + 1)
    (hcache : s'.cache = s.cache) (hfile : s'.file = s.file)
    (hchain : ∀ j, s.writeChain.head? = some j → s'.writeChain.head? = some j)
    (hself : PcSound s op pc) (hidle : op.locked = true → pc.active = false) : Sound s' where
  fresh := by
    intro j hj
    rw [hnext] at hj
    have hlt : s.next < j := hj
    rw [htasks]
    simp only [State.goto, Function.update_of_ne hlt.ne']
    exact h.fresh j hlt.le
  calls := by
    intro j op' pc' hj
    rw [htasks] at hj
    rcases tasks_goto hj with ⟨-, heq⟩ | ⟨-, hj⟩
    · cases heq
      exact hself.of_eq hcache hfile
    · exact (h.calls j op' pc' hj).of_eq hcache hfile
  head := by
    intro j op' pc' hj hlocked hact
    rw [htasks] at hj
    rcases tasks_goto hj with ⟨-, heq⟩ | ⟨-, hj⟩
    · cases heq
      rw [hidle hlocked] at hact
      cases hact
    · exact hchain j (h.head j op' pc' hj hlocked hact)
  quiet := by
    intro hnot c hc
    rw [hcache] at hc
    have hdisk : s'.onDisk = s.onDisk := by rw [State.onDisk, State.onDisk, hfile]
    rw [hdisk]
    refine h.quiet (fun j o next hj => hnot j o next ?_) c hc
    rw [htasks]
    simpa only [State.goto, Function.update_of_ne (h.lt hj).ne] using hj

theorem locked_of_next {op : Op} {store next : Store} (h : op.next store = some next) :
    op.locked = true := by
  cases op with
  | getSecret w k => cases h
  | listKeys w => cases h
  | _ => rfl

/-- While the call at the head of the chain is not writing, no call is. -/
theorem Sound.not_writing {s : State} (h : Sound s) {t : ℕ} {op : Op} {pc : Pc}
    (hhead : s.writeChain.head? = some t) (ht : s.tasks t = some ⟨op, pc⟩)
    (hpc : ∀ next, pc ≠ .writing next) (j : ℕ) (o : Op) (next : Store) :
    s.tasks j ≠ some ⟨o, .writing next⟩ := by
  intro hj
  have hjhead := h.head j o _ hj (h.calls j o _ hj).1 rfl
  obtain rfl := Option.some.inj (hhead.symm.trans hjhead)
  have heq := Option.some.inj (ht.symm.trans hj)
  cases heq
  exact hpc next rfl

theorem load_active (s : State) : s.load.active = true := by
  unfold State.load
  split <;> rfl

theorem Sound.call {s : State} (h : Sound s) (op : Op) (available : Bool) :
    Sound (s.call op available) := by
  have hload : ∀ op : Op, op.locked = false → Sound (s.spawn op s.load) := by
    intro op hop
    refine h.spawn rfl rfl rfl rfl (fun _ hj => hj) ?_ fun hlocked => ?_
    · unfold State.load
      split
      · next c hc => exact ⟨by rw [hc]; nofun, fun hlocked => by rw [hop] at hlocked; cases hlocked⟩
      · trivial
    · rw [hop] at hlocked
      cases hlocked
  have hwait : ∀ op : Op,
      Sound { s.spawn op .waiting with writeChain := s.writeChain ++ [s.next] } := by
    intro op
    refine h.spawn rfl rfl rfl rfl (fun j hj => ?_) trivial fun _ => rfl
    simp only [List.head?_append, hj, Option.some_or]
  cases op with
  | getSecret w k => exact hload _ rfl
  | listKeys w => exact hload _ rfl
  | setSecret w k v =>
    unfold State.call
    dsimp only
    split_ifs
    · exact hwait _
    · exact h.spawn rfl rfl rfl rfl (fun _ hj => hj) trivial fun _ => rfl
  | deleteSecret w k => exact hwait _
  | deleteAllForWorkspace w => exact hwait _

theorem Sound.restart {s : State} (h : Sound s) : Sound s.restart := by
  have hkill : ∀ t op pc, s.restart.tasks t = some ⟨op, pc⟩ →
      PcSound s.restart op pc ∧ pc.active = false := by
    intro t op pc ht
    obtain ⟨x, -, hx⟩ := Option.map_eq_some_iff.mp ht
    cases hx
    cases x.pc <;> exact ⟨trivial, rfl⟩
  refine ⟨fun t ht => ?_, fun t op pc ht => (hkill t op pc ht).1, fun t op pc ht _ hact => ?_,
    fun _ c hc => nomatch hc⟩
  · simp only [State.restart, h.fresh t ht, Option.map_none]
  · rw [(hkill t op pc ht).2] at hact
    cases hact

/-- A `load` that read the file assigns the copy. -/
theorem Sound.assign {s : State} (h : Sound s) {t : ℕ} {op : Op} {store : Store}
    (ht : s.tasks t = some ⟨op, .arrived store⟩)
    (hcalm : s.cache = none ∨ s.cache = some store) :
    Sound ({ s with cache := some store }.goto t op (.loaded store)) := by
  have hactive : op.locked = true → s.writeChain.head? = some t :=
    fun hlocked => h.head t op _ ht hlocked rfl
  rcases hcalm with hnone | hsame
  · have hdisk : store = s.onDisk := h.calls t op _ ht hnone
    refine h.move ht rfl rfl ⟨Option.some_ne_none _, fun _ => ⟨rfl, hdisk⟩⟩
      (fun hlocked _ => hactive hlocked) (fun _ _ hj => hj) (fun j hj o pc hpc => ?_) fun _ c hc => ?_
    · -- without a copy no call is past its read
      have hsound := h.calls j o pc hpc
      cases pc with
      | arrived st =>
        intro hc
        cases hc
      | loaded st => exact absurd hnone hsound.1
      | writing next => exact absurd (hnone.symm.trans hsound.2.1) nofun
      | wrote next => exact absurd (hnone.symm.trans hsound.2.1) nofun
      | _ => trivial
    · exact (Option.some.inj hc).symm.trans hdisk
  · have hstate : { s with cache := some store } = s := by rw [← hsame]
    rw [hstate]
    refine h.goto ht nofun ⟨by rw [hsame]; nofun, fun hlocked => ⟨hsame, ?_⟩⟩
      fun hlocked _ => hactive hlocked
    exact h.quiet (h.not_writing (hactive hlocked) ht nofun) store hsame

theorem Sound.proceed {s : State} (h : Sound s) {t : ℕ} {op : Op} {store : Store} {a : Answer}
    (ht : s.tasks t = some ⟨op, .loaded store⟩) (hcalm : a = .ok ∨ op.next store = none) :
    Sound (s.proceed t op store a) := by
  unfold State.proceed
  split
  · exact h.settle ht nofun trivial rfl
  · next next hnext =>
    have hlocked := locked_of_next hnext
    have hhead := h.head t op _ ht hlocked rfl
    refine h.move ht rfl rfl ⟨hlocked, rfl, store, hnext⟩ (fun _ _ => hhead) (fun _ _ hj => hj)
      (fun j hj o pc hpc => h.others hhead (Option.some_ne_none _) hj hpc) fun hnot => ?_
    refine absurd ?_ (hnot t op next)
    simp only [State.goto, Function.update_self]
  · next next e hnext =>
    rcases hcalm with hok | hnone
    · cases hok
    · rw [hnext] at hnone
      cases hnone

theorem Sound.resume {s s' : State} (h : Sound s) {t : ℕ} {op : Op} {pc : Pc} {a : Answer}
    (ht : s.tasks t = some ⟨op, pc⟩) (hcalm : CalmAt s a ⟨op, pc⟩)
    (hs : s.resume t op pc a = some s') : Sound s' := by
  unfold State.resume at hs
  split at hs
  · split_ifs at hs with hhead
    obtain rfl := Option.some.inj hs
    refine h.goto ht nofun ?_ fun _ _ => hhead
    unfold State.load
    split
    · next c hc =>
      exact ⟨by rw [hc]; nofun, fun _ => ⟨hc, h.quiet (h.not_writing hhead ht nofun) c hc⟩⟩
    · trivial
  · obtain rfl := Option.some.inj hs
    exact h.goto ht nofun (fun _ => rfl) fun hlocked _ => h.head t op _ ht hlocked rfl
  · obtain rfl := Option.some.inj hs
    have hmissing : s.file = none := hcalm.resolve_left nofun
    refine h.goto ht nofun (fun _ => ?_) fun hlocked _ => h.head t op _ ht hlocked rfl
    rw [State.onDisk, hmissing, Option.getD_none]
  · obtain rfl := Option.some.inj hs
    exact h.assign ht hcalm
  · obtain rfl := Option.some.inj hs
    exact h.proceed ht hcalm
  · next next =>
    obtain rfl := Option.some.inj hs
    obtain ⟨hlocked, hcache, hfrom⟩ := h.calls t op _ ht
    have hhead := h.head t op _ ht hlocked rfl
    refine h.move ht rfl rfl ⟨hlocked, hcache, rfl, hfrom⟩ (fun _ _ => hhead) (fun _ _ hj => hj)
      (fun j hj o pc hpc => h.others hhead ?_ hj hpc) fun _ c hc => ?_
    · rw [hcache]
      nofun
    · exact (Option.some.inj (hcache.symm.trans hc)).symm
  · cases hcalm
  · obtain rfl := Option.some.inj hs
    exact h.settle ht nofun trivial rfl
  · cases hs
  · cases hs
  · cases hs

theorem Sound.step {s s' : State} {a : Action} (h : Sound s) (hcalm : Calm s a)
    (hs : step s a = some s') : Sound s' := by
  cases a with
  | call op available =>
    obtain rfl := Option.some.inj hs
    exact h.call op available
  | resume t a =>
    simp only [Vault.step] at hs
    split at hs
    · next op pc ht => exact h.resume ht (hcalm _ ht) hs
    · cases hs
  | restart =>
    obtain rfl := Option.some.inj hs
    exact h.restart

/-- The call whose write begins in this step, by assigning the copy. -/
def begins (s : State) : Action → Option Op
  | .resume t _ =>
    match s.tasks t with
    | some ⟨op, .loaded store⟩ => if (op.next store).isSome then some op else none
    | _ => none
  | _ => none

/-- No set or delete of this secret begins its write. -/
def NotCovered (workspaceId key : String) (s : State) (a : Action) : Prop :=
  ∀ op, begins s a = some op → ¬ op.Covers workspaceId key

/-- What a call that began since knows of the secret. -/
def Recent (workspaceId key value : String) (op : Op) : Pc → Prop
  | .arrived store => store.secret workspaceId key = some value
  | .loaded store => store.secret workspaceId key = some value
  | .resolved r => op = .getSecret workspaceId key → r = .secret (some value)
  | _ => True

/-- The secret is stored, and every call made since has it. -/
structure Held (workspaceId key value : String) (since : ℕ) (s : State) : Prop where
  disk : s.onDisk.secret workspaceId key = some value
  cached : ∀ c, s.cache = some c → c.secret workspaceId key = some value
  recent : ∀ t ≥ since, ∀ op pc, s.tasks t = some ⟨op, pc⟩ → Recent workspaceId key value op pc

section
variable {workspaceId key value : String} {since : ℕ} {s : State}

theorem Held.goto {t : ℕ} {op : Op} {pc : Pc} (h : Held workspaceId key value since s)
    (hpc : t ≥ since → Recent workspaceId key value op pc) :
    Held workspaceId key value since (s.goto t op pc) where
  disk := h.disk
  cached := h.cached
  recent := by
    intro j hj o p hp
    rcases tasks_goto hp with ⟨rfl, heq⟩ | ⟨-, hp⟩
    · cases heq
      exact hpc hj
    · exact h.recent j hj o p hp

theorem Held.load (h : Held workspaceId key value since s) (op : Op) :
    Recent workspaceId key value op s.load := by
  unfold State.load
  split
  · next c hc => exact h.cached c hc
  · trivial

theorem Held.spawn {s' : State} {op : Op} (h : Held workspaceId key value since s) (pc : Pc)
    (htasks : s'.tasks = (s.goto s.next op pc).tasks) (hcache : s'.cache = s.cache)
    (hfile : s'.file = s.file) (hpc : Recent workspaceId key value op pc) :
    Held workspaceId key value since s' := by
  have hnew := h.goto (t := s.next) fun _ => hpc
  refine ⟨?_, fun c hc => h.cached c (hcache ▸ hc), fun t ht o p hp => ?_⟩
  · rw [State.onDisk, hfile]
    exact h.disk
  · rw [htasks] at hp
    exact hnew.recent t ht o p hp

theorem Held.call (h : Held workspaceId key value since s) (op : Op) (available : Bool) :
    Held workspaceId key value since (s.call op available) := by
  cases op with
  | getSecret w k => exact h.spawn s.load rfl rfl rfl (h.load _)
  | listKeys w => exact h.spawn s.load rfl rfl rfl (h.load _)
  | setSecret w k v =>
    unfold State.call
    dsimp only
    split_ifs
    · exact h.spawn .waiting rfl rfl rfl trivial
    · exact h.spawn _ rfl rfl rfl trivial
  | deleteSecret w k => exact h.spawn .waiting rfl rfl rfl trivial
  | deleteAllForWorkspace w => exact h.spawn .waiting rfl rfl rfl trivial

theorem Held.restart (h : Held workspaceId key value since s) :
    Held workspaceId key value since s.restart where
  disk := h.disk
  cached := fun c hc => nomatch hc
  recent := by
    intro t ht op pc hpc
    obtain ⟨x, hx, heq⟩ := Option.map_eq_some_iff.mp hpc
    have hold := h.recent t ht x.op x.pc hx
    cases heq
    revert hold
    cases x.pc with
    | resolved r => exact fun hold => hold
    | _ => exact fun _ => trivial

theorem Held.resume {s' : State} {t : ℕ} {op : Op} {pc : Pc} {a : Answer}
    (h : Held workspaceId key value since s) (hsound : Sound s) (ht : s.tasks t = some ⟨op, pc⟩)
    (hcalm : CalmAt s a ⟨op, pc⟩) (hnot : NotCovered workspaceId key s (.resume t a))
    (hs : s.resume t op pc a = some s') : Held workspaceId key value since s' := by
  unfold State.resume at hs
  split at hs
  · split_ifs at hs
    obtain rfl := Option.some.inj hs
    exact h.goto fun _ => h.load op
  · obtain rfl := Option.some.inj hs
    exact h.goto fun _ => h.disk
  · obtain rfl := Option.some.inj hs
    have hmissing : s.file = none := hcalm.resolve_left nofun
    have hdisk := h.disk
    rw [State.onDisk, hmissing, Option.getD_none, secret_empty] at hdisk
    cases hdisk
  · next store =>
    obtain rfl := Option.some.inj hs
    have hstore : store.secret workspaceId key = some value := by
      rcases hcalm with hnone | hsame
      · have hfile : store = s.onDisk := hsound.calls t op _ ht hnone
        rw [hfile]
        exact h.disk
      · exact h.cached store hsame
    refine Held.goto (s := { s with cache := some store }) ⟨h.disk, ?_, h.recent⟩ fun _ => hstore
    intro c hc
    obtain rfl := Option.some.inj hc
    exact hstore
  · next store =>
    obtain rfl := Option.some.inj hs
    unfold State.proceed
    split
    · have hnew : Held workspaceId key value since (s.goto t op (.resolved (op.result store))) := by
        refine h.goto fun hge => ?_
        have hstore := h.recent t hge op _ ht
        rintro rfl
        exact congrArg Result.secret hstore
      exact ⟨hnew.disk, hnew.cached, hnew.recent⟩
    · next next hnext =>
      have hlocked := locked_of_next hnext
      obtain ⟨hcache, -⟩ := (hsound.calls t op _ ht).2 hlocked
      have hbegins : begins s (.resume t .ok) = some op := by
        simp [begins, ht, hnext]
      have hkeeps := next_secret hnext (hnot op hbegins)
      refine Held.goto (s := { s with cache := some next }) ⟨h.disk, ?_, h.recent⟩ fun _ => trivial
      intro c hc
      obtain rfl := Option.some.inj hc
      exact hkeeps.trans (h.cached store hcache)
    · next next e hnext =>
      rcases hcalm with hok | hnone
      · cases hok
      · rw [hnext] at hnone
        cases hnone
  · next next =>
    obtain rfl := Option.some.inj hs
    obtain ⟨-, hcache, -⟩ := hsound.calls t op _ ht
    exact Held.goto (s := { s with file := some next })
      ⟨h.cached next hcache, h.cached, h.recent⟩ fun _ => trivial
  · cases hcalm
  · obtain rfl := Option.some.inj hs
    obtain ⟨hlocked, -⟩ := hsound.calls t op _ ht
    have hnew : Held workspaceId key value since (s.goto t op (.resolved .done)) := by
      refine h.goto fun _ => ?_
      rintro rfl
      cases hlocked
    exact ⟨hnew.disk, hnew.cached, hnew.recent⟩
  · cases hs
  · cases hs
  · cases hs

theorem Held.step {s' : State} {a : Action} (h : Held workspaceId key value since s)
    (hsound : Sound s) (hcalm : Calm s a) (hnot : NotCovered workspaceId key s a)
    (hs : step s a = some s') : Held workspaceId key value since s' := by
  cases a with
  | call op available =>
    obtain rfl := Option.some.inj hs
    exact h.call op available
  | resume t a =>
    simp only [Vault.step] at hs
    split at hs
    · next op pc ht => exact h.resume hsound ht (hcalm _ ht) hnot hs
    · cases hs
  | restart =>
    obtain rfl := Option.some.inj hs
    exact h.restart

end

theorem reachable_sound {file : Option Store} {as : List Action} {s : State}
    (hr : run step (.start file) as = some s) (hcalm : Along step Calm (.start file) as) :
    Sound s :=
  run_invariant_along (fun _ _ _ h hok hs => h.step hok hs) (.start file) hr hcalm

theorem tasks_goto_self (s : State) (t : ℕ) (op : Op) (pc : Pc) :
    (s.goto t op pc).tasks t = some ⟨op, pc⟩ := by
  simp only [State.goto, Function.update_self]

theorem tasks_settle_self (s : State) (t : ℕ) (op : Op) (pc : Pc) :
    (s.settle t op pc).tasks t = some ⟨op, pc⟩ := tasks_goto_self s t op pc

/-- Where a call goes on, and what it does to the copy and the file. -/
theorem resume_self {s s' : State} {t : ℕ} {op : Op} {pc : Pc} {a : Answer}
    (hs : s.resume t op pc a = some s') : ∃ pc', s'.tasks t = some ⟨op, pc'⟩ ∧
      (∀ r, pc' = .resolved r → (∃ next, pc = .wrote next) ∧ s'.cache = s.cache ∧
        s'.file = s.file ∨ ∃ store, pc = .loaded store ∧ op.next store = none) ∧
      ∀ e, pc' = .rejected e → ¬ CalmAt s a ⟨op, pc⟩ := by
  unfold State.resume at hs
  split at hs
  · split_ifs at hs
    obtain rfl := Option.some.inj hs
    refine ⟨_, tasks_goto_self _ _ _ _, ?_, ?_⟩ <;> unfold State.load <;> split <;> nofun
  · obtain rfl := Option.some.inj hs
    exact ⟨_, tasks_goto_self _ _ _ _, nofun, nofun⟩
  · obtain rfl := Option.some.inj hs
    exact ⟨_, tasks_goto_self _ _ _ _, nofun, nofun⟩
  · obtain rfl := Option.some.inj hs
    exact ⟨_, tasks_goto_self _ _ _ _, nofun, nofun⟩
  · next store =>
    obtain rfl := Option.some.inj hs
    unfold State.proceed
    split
    · next hnext =>
      exact ⟨_, tasks_settle_self _ _ _ _, fun r _ => Or.inr ⟨store, rfl, hnext⟩, nofun⟩
    · exact ⟨_, tasks_goto_self _ _ _ _, nofun, nofun⟩
    · next next e hnext =>
      refine ⟨_, tasks_settle_self _ _ _ _, nofun, fun _ _ hcalm => ?_⟩
      rcases hcalm with hok | hnone
      · cases hok
      · rw [hnext] at hnone
        cases hnone
  · obtain rfl := Option.some.inj hs
    exact ⟨_, tasks_goto_self _ _ _ _, nofun, nofun⟩
  · obtain rfl := Option.some.inj hs
    exact ⟨_, tasks_settle_self _ _ _ _, nofun, fun _ _ hcalm => nomatch hcalm⟩
  · obtain rfl := Option.some.inj hs
    exact ⟨_, tasks_settle_self _ _ _ _, fun _ _ => Or.inl ⟨⟨_, rfl⟩, rfl, rfl⟩, nofun⟩
  · cases hs
  · cases hs
  · cases hs

/-- A `setSecret` that resolves has stored its secret. -/
theorem Sound.held {s s' : State} (h : Sound s) {t : ℕ} {a : Answer}
    {workspaceId key value : String} {r : Result} (hcalm : Calm s (.resume t a))
    (hs : Vault.step s (.resume t a) = some s')
    (hdone : s'.tasks t = some ⟨.setSecret workspaceId key value, .resolved r⟩) :
    Held workspaceId key value s'.next s' := by
  have hsound' := h.step hcalm hs
  suffices hstored : s'.onDisk.secret workspaceId key = some value ∧
      ∀ c, s'.cache = some c → c.secret workspaceId key = some value by
    refine ⟨hstored.1, hstored.2, fun j hj op pc hpc => ?_⟩
    exact absurd (hpc.symm.trans (hsound'.fresh j hj)) nofun
  simp only [Vault.step] at hs
  split at hs
  · next op pc ht =>
    obtain ⟨pc', hpc', hresolved, -⟩ := resume_self hs
    have heq := Option.some.inj (hdone.symm.trans hpc')
    cases heq
    obtain ⟨⟨next, rfl⟩, hcache', hfile'⟩ | ⟨store, -, hnone⟩ := hresolved r rfl
    · obtain ⟨-, hcache, hfile, store, hnext⟩ := h.calls t _ _ ht
      have hsecret := next_setSecret hnext
      constructor
      · rw [State.onDisk, hfile', hfile]
        exact hsecret
      · intro c hc
        rw [hcache', hcache] at hc
        obtain rfl := Option.some.inj hc
        exact hsecret
    · cases hnone
  · cases hs

theorem onDisk_secret {s : State} {workspaceId key value : String}
    (h : s.onDisk.secret workspaceId key = some value) :
    ∃ f, s.file = some f ∧ f.secret workspaceId key = some value := by
  cases hf : s.file with
  | none =>
    rw [State.onDisk, hf, Option.getD_none, secret_empty] at h
    cases h
  | some f =>
    rw [State.onDisk, hf, Option.getD_some] at h
    exact ⟨f, rfl, h⟩

theorem tasks_goto_other (s : State) {t j : ℕ} (hj : j ≠ t) (op : Op) (pc : Pc) :
    (s.goto t op pc).tasks j = s.tasks j := by
  simp only [State.goto, Function.update_of_ne hj]

theorem resume_other {s s' : State} {t j : ℕ} {op : Op} {pc : Pc} {a : Answer} (hj : j ≠ t)
    (hs : s.resume t op pc a = some s') : s'.tasks j = s.tasks j := by
  unfold State.resume at hs
  split at hs
  · split_ifs at hs
    obtain rfl := Option.some.inj hs
    exact tasks_goto_other s hj op _
  · obtain rfl := Option.some.inj hs
    exact tasks_goto_other s hj op _
  · obtain rfl := Option.some.inj hs
    exact tasks_goto_other s hj op _
  · obtain rfl := Option.some.inj hs
    exact tasks_goto_other _ hj op _
  · obtain rfl := Option.some.inj hs
    unfold State.proceed
    split <;> exact tasks_goto_other _ hj op _
  · obtain rfl := Option.some.inj hs
    exact tasks_goto_other _ hj op _
  · obtain rfl := Option.some.inj hs
    exact tasks_goto_other s hj op _
  · obtain rfl := Option.some.inj hs
    exact tasks_goto_other s hj op _
  · cases hs
  · cases hs
  · cases hs

theorem call_frame (s : State) (op : Op) (available : Bool) :
    (s.call op available).cache = s.cache ∧ (s.call op available).file = s.file ∧
      ∀ j ≠ s.next, (s.call op available).tasks j = s.tasks j := by
  cases op with
  | setSecret w k v =>
    unfold State.call
    dsimp only
    split_ifs <;> exact ⟨rfl, rfl, fun j hj => tasks_goto_other s hj _ _⟩
  | _ => exact ⟨rfl, rfl, fun j hj => tasks_goto_other s hj _ _⟩

/-- Where no read and no write fails, a rejected call is one that was turned down when it was
made. -/
theorem rejects_at_call {s s' : State} {a : Action} {t : ℕ} {op : Op} {e : String}
    (hcalm : Calm s a) (hs : step s a = some s') (hbefore : s.tasks t ≠ some ⟨op, .rejected e⟩)
    (hafter : s'.tasks t = some ⟨op, .rejected e⟩) :
    s'.cache = s.cache ∧ s'.file = s.file ∧ t = s.next := by
  cases a with
  | call op' available =>
    obtain rfl := Option.some.inj hs
    obtain ⟨hcache, hfile, hothers⟩ := call_frame s op' available
    refine ⟨hcache, hfile, ?_⟩
    by_contra hne
    exact hbefore ((hothers t hne).symm.trans hafter)
  | resume j a =>
    simp only [step] at hs
    split at hs
    · next op' pc hj =>
      by_cases hjt : t = j
      · subst hjt
        obtain ⟨pc', hpc', -, hrejected⟩ := resume_self hs
        have heq := Option.some.inj (hafter.symm.trans hpc')
        cases heq
        exact absurd (hcalm _ hj) (hrejected e rfl)
      · exact absurd ((resume_other hjt hs).symm.trans hafter) hbefore
    · cases hs
  | restart =>
    obtain rfl := Option.some.inj hs
    obtain ⟨x, hx, heq⟩ := Option.map_eq_some_iff.mp hafter
    refine absurd ?_ hbefore
    rw [hx]
    cases x with
    | mk op' pc =>
      cases pc with
      | rejected e' => exact congrArg some heq
      | _ => cases heq

/-- In the runs where no read of the file and no write fails, and no `load` replaces a copy that has
become another: from the step in which a `setSecret` resolves, until a set or delete of that secret
begins its write, the file holds it and every `getSecret` called since that has resolved returned it;
and a call that rejects was turned down as it was made, with the copy and the file left alone. -/
theorem secrets_durable {file : Option Store} {as : List Action} {s : State}
    (hr : run step (.start file) as = some s) (hcalm : Along step Calm (.start file) as) :
    (∀ as₁ t a as₂ u u' workspaceId key value r, as = as₁ ++ .resume t a :: as₂ →
      run step (.start file) as₁ = some u → step u (.resume t a) = some u' →
      u'.tasks t = some ⟨.setSecret workspaceId key value, .resolved r⟩ →
      Along step (NotCovered workspaceId key) u' as₂ →
        (∃ f, s.file = some f ∧ f.secret workspaceId key = some value) ∧
        ∀ j ≥ u'.next, ∀ r, s.tasks j = some ⟨.getSecret workspaceId key, .resolved r⟩ →
          r = .secret (some value)) ∧
    ∀ as₁ a as₂ u u' t op e, as = as₁ ++ a :: as₂ → run step (.start file) as₁ = some u →
      step u a = some u' → u.tasks t ≠ some ⟨op, .rejected e⟩ →
      u'.tasks t = some ⟨op, .rejected e⟩ →
        u'.cache = u.cache ∧ u'.file = u.file ∧ u.tasks t = none := by
  constructor
  · rintro as₁ t a as₂ u u' workspaceId key value r rfl hu hstep hdone hnot
    obtain ⟨hcalm₁, hcalm₂⟩ := along_append.mp hcalm
    obtain ⟨v, hv, hrest⟩ := run_append.mp hr
    obtain rfl := Option.some.inj (hu.symm.trans hv)
    obtain ⟨v', hv', hlast⟩ := run_cons hrest
    obtain rfl := Option.some.inj (hstep.symm.trans hv')
    have hsound := reachable_sound hu hcalm₁
    have hnow := hcalm₂ u hu
    have hheld := run_invariant_along
      (I := fun s => Sound s ∧ Held workspaceId key value u'.next s)
      (fun s a t h hok hs => ⟨h.1.step hok.1 hs, h.2.step h.1 hok.1 hok.2 hs⟩)
      ⟨hsound.step hnow.1 hstep, hsound.held hnow.1 hstep hdone⟩ hlast
      ((hnow.tail hstep).and hnot)
    refine ⟨onDisk_secret hheld.2.disk, fun j hj r hj' => ?_⟩
    exact hheld.2.recent j hj _ _ hj' rfl
  · rintro as₁ a as₂ u u' t op e rfl hu hstep hbefore hafter
    obtain ⟨hcalm₁, hcalm₂⟩ := along_append.mp hcalm
    have hsound := reachable_sound hu hcalm₁
    obtain ⟨hcache, hfile, ht⟩ := rejects_at_call (hcalm₂ u hu).1 hstep hbefore hafter
    exact ⟨hcache, hfile, hsound.fresh t ht.ge⟩

/-- A secret is stored, the app starts again, and the secret is asked for. -/
def exKept : List Action :=
  [.call (.setSecret "w" "k" "v") true, .resume 0 .ok, .resume 0 .ok, .resume 0 .ok, .resume 0 .ok,
    .resume 0 .ok, .resume 0 .ok, .restart, .call (.getSecret "w" "k") true, .resume 1 .ok,
    .resume 1 .ok, .resume 1 .ok]

theorem secrets_durable_kept :
    ((run step (.start none) exKept).bind fun s => s.tasks 1) =
      some ⟨.getSecret "w" "k", .resolved (.secret (some "v"))⟩ ∧
    ∀ s, run step (.start none) exKept = some s →
      ∃ f, s.file = some f ∧ f.secret "w" "k" = some "v" := by
  refine ⟨by decide +kernel, fun s hs => ?_⟩
  refine ((secrets_durable hs (by decide +kernel)).1 (exKept.take 6) 0 .ok (exKept.drop 7) _ _
    "w" "k" "v" .done rfl rfl rfl rfl ?_).1
  refine ⟨?_, ?_, ?_, ?_, ?_, trivial⟩ <;> rintro op h <;> cases h

/-- A `getSecret` reads the file, a secret is stored, and then the read is assigned. -/
def exRaced : List Action :=
  [.call (.getSecret "w" "k") true, .resume 0 .ok,
    .call (.setSecret "w" "k" "v") true, .resume 1 .ok, .resume 1 .ok, .resume 1 .ok,
    .resume 1 .ok, .resume 1 .ok, .resume 1 .ok, .resume 0 .ok,
    .call (.getSecret "w" "k") true, .resume 2 .ok,
    .call (.setSecret "w" "k2" "v2") true, .resume 3 .ok, .resume 3 .ok, .resume 3 .ok,
    .resume 3 .ok]

/-- The stored secret is neither returned nor, after the next write, in the file. -/
theorem secret_lost : ∃ u u' s, run step (.start none) (exRaced.take 8) = some u ∧
    step u (.resume 1 .ok) = some u' ∧ run step u' (exRaced.drop 9) = some s ∧
    u'.tasks 1 = some ⟨.setSecret "w" "k" "v", .resolved .done⟩ ∧
    Along step (NotCovered "w" "k") u' (exRaced.drop 9) ∧
    s.tasks 2 = some ⟨.getSecret "w" "k", .resolved (.secret none)⟩ ∧
    ∃ f, s.file = some f ∧ f.secret "w" "k" = none := by
  refine ⟨_, _, _, rfl, rfl, rfl, rfl, ?_, rfl, _, rfl, rfl⟩
  refine ⟨?_, ?_, ?_, ?_, ?_, ?_, ?_, ?_, trivial⟩ <;> intro op h hcovers <;> cases h
  exact absurd hcovers.2 (by decide)

end ClaudeFleet.Vault
