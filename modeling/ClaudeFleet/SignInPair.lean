import ClaudeFleet.IdentityService

/-! The token and the profile that are read were saved together, and a sign-out wins over every
sign-in that was started before it. -/
namespace ClaudeFleet.Identity
open State

/-- A completed sign-in was started after each sign-out that has resolved. -/
def Earned (log : List Event) : Prop :=
  ∀ k, Event.signedOut k ∈ log → ∃ called, Event.completed called ∈ log ∧ k ≤ called

/-- What a `load` may answer after what happened before it. -/
def Allowed (before : List Event) : Event → Prop
  | .loaded x => Event.saved x ∈ before ∧ Earned before
  | _ => True

def Consistent (log : List Event) (vault : Bag) : Prop :=
  ∀ t p, vault.token = some t → vault.profile = some p → Event.saved ⟨t, p⟩ ∈ log

/-- Why a save that writes may store its token. -/
def Entitled (s : State) (x : Saved) : SaveFrom → Prop
  | .refresh => s.vault.token = some x.token
  | .signIn called => ∀ k, Event.signedOut k ∈ s.log → k ≤ called

/-- The two stores, whatever the job that runs is doing. -/
structure Kept (env : Env) (s : State) : Prop where
  behind : ∀ j ∈ s.chain.tail, j.pc = .queued
  memory : ∀ x ∈ s.memory, Event.saved x ∈ s.log
  earned : s.vault.token ≠ none ∨ s.memory ≠ none → Earned s.log
  mode : (env.persisted = false → s.vault.token = none) ∧ (env.persisted = true → s.memory = none)
  outs : ∀ k, Event.signedOut k ∈ s.log → k ≤ s.signOuts
  justified : Transition.Justified Allowed s.log

/-- A save between its two cells is the only one to leave no pair in the vault. -/
structure Store (env : Env) (s : State) : Prop extends Kept env s where
  pair : (∀ j ∈ s.chain.head?, j.pc ≠ .token) → Consistent s.log s.vault
  writing : ∀ j ∈ s.chain.head?, j.pc ≠ .queued → env.persisted = true ∧
    ∃ x epoch origin, j.kind = .save x epoch origin ∧ Event.saved x ∈ s.log ∧
      Entitled s x origin ∧ (j.pc = .token → s.vault.profile = some x.profile)

/-- Whoever may still save a sign-in was started after the last sign-out. -/
structure Epochs (s : State) : Prop where
  pending : ∀ f ∈ s.pending, f < s.begun ∧ (s.flows f).called = s.signOuts
  starting : ∀ t called, s.tasks t = some (.starting called) → called = s.signOuts
  finishing : ∀ t f token epoch, s.tasks t = some (.finishing f token epoch) →
    f < s.begun ∧ epoch ≤ s.epoch ∧ (epoch = s.epoch → (s.flows f).called = s.signOuts)
  saves : ∀ j ∈ s.chain, ∀ x epoch called, j.kind = .save x epoch (.signIn called) →
    epoch ≤ s.epoch ∧ (epoch = s.epoch → called = s.signOuts)
  clears : ∀ j ∈ s.chain, ∀ k, j.kind = .clear k → k ≤ s.signOuts
  unborn : ∀ t, s.next ≤ t → s.tasks t = none

structure Sound (env : Env) (s : State) : Prop where
  store : Store env s
  epochs : Epochs s

theorem start_sound (env : Env) : Sound env State.start := by
  refine ⟨⟨?_, ?_, ?_⟩, ?_⟩
  · constructor <;> simp [State.start, Earned, Transition.Justified]
  · simp [State.start, Consistent]
  · simp [State.start]
  · constructor <;> simp [State.start]

/-! What a call does to the epochs. -/

section Epochs
variable {s s' : State}

theorem Epochs.setTask (h : Epochs s) {t : ℕ} (ht : t < s.next) {pc : Pc}
    (hstart : ∀ called, pc = .starting called → called = s.signOuts)
    (hfinish : ∀ f token epoch, pc = .finishing f token epoch →
      f < s.begun ∧ epoch ≤ s.epoch ∧ (epoch = s.epoch → (s.flows f).called = s.signOuts)) :
    Epochs (s.setTask t pc) := by
  refine ⟨h.pending, ?_, ?_, h.saves, h.clears, ?_⟩
  · intro t' called ht'
    simp only [State.setTask, Function.update_apply] at ht'
    split at ht'
    · exact hstart called (Option.some.inj ht')
    · exact h.starting t' called ht'
  · intro t' f token epoch ht'
    simp only [State.setTask, Function.update_apply] at ht'
    split at ht'
    · exact hfinish f token epoch (Option.some.inj ht')
    · exact h.finishing t' f token epoch ht'
  · intro t' ht'
    have hne : t' ≠ t := by
      simp only [State.setTask] at ht'
      omega
    simp only [State.setTask, Function.update_apply, hne, if_false]
    exact h.unborn t' ht'

theorem Epochs.endTask (h : Epochs s) (t : ℕ) : Epochs (s.endTask t) := by
  have htasks : ∀ t' pc, (s.endTask t).tasks t' = some pc → s.tasks t' = some pc := by
    intro t' pc ht'
    simp only [State.endTask, Function.update_apply] at ht'
    split at ht'
    · cases ht'
    · exact ht'
  refine ⟨h.pending, fun t' called ht' => h.starting t' called (htasks _ _ ht'),
    fun t' f token epoch ht' => h.finishing t' f token epoch (htasks _ _ ht'), h.saves, h.clears,
    ?_⟩
  intro t' ht'
  simp only [State.endTask, Function.update_apply]
  split
  · rfl
  · exact h.unborn t' ht'

/-- A task that begins in no state the epochs speak of. -/
theorem Epochs.spawn (h : Epochs s) {pc : Pc}
    (hstart : ∀ called, pc = .starting called → called = s.signOuts)
    (hfinish : ∀ f token epoch, pc ≠ .finishing f token epoch) : Epochs (s.spawn pc) := by
  have hnext : Epochs { s with next := s.next + 1 } :=
    ⟨h.pending, h.starting, h.finishing, h.saves, h.clears,
      fun t ht => h.unborn t (Nat.le_of_succ_le ht)⟩
  exact hnext.setTask (Nat.lt_succ_self s.next) hstart
    fun f token epoch hpc => absurd hpc (hfinish f token epoch)

theorem Epochs.serial (h : Epochs s) {kind : JobKind}
    (hsave : ∀ x epoch called, kind = .save x epoch (.signIn called) →
      epoch ≤ s.epoch ∧ (epoch = s.epoch → called = s.signOuts))
    (hclear : ∀ k, kind = .clear k → k ≤ s.signOuts) : Epochs (s.serial kind) := by
  refine ⟨h.pending, h.starting, h.finishing, ?_, ?_, h.unborn⟩
  · intro j hj
    rcases List.mem_append.mp hj with hj | hj
    · exact h.saves j hj
    · rw [List.mem_singleton.mp hj]
      exact hsave
  · intro j hj
    rcases List.mem_append.mp hj with hj | hj
    · exact h.clears j hj
    · rw [List.mem_singleton.mp hj]
      exact hclear

/-- A sign-in that changes and keeps its start. -/
theorem Epochs.setFlow (h : Epochs s) {f : ℕ} {p : Pending}
    (hp : p.called = (s.flows f).called ∨ f = s.begun) : Epochs (s.setFlow f p) := by
  have hcalled : ∀ g < s.begun, ((s.setFlow f p).flows g).called = (s.flows g).called := by
    intro g hg
    simp only [State.setFlow, Function.update_apply]
    split
    · next hgf =>
      rcases hp with hp | hp
      · rw [hgf, hp]
      · omega
    · rfl
  refine ⟨?_, h.starting, ?_, h.saves, h.clears, h.unborn⟩
  · intro g hg
    obtain ⟨hlt, hc⟩ := h.pending g hg
    exact ⟨hlt, (hcalled g hlt).trans hc⟩
  · intro t g token epoch ht
    obtain ⟨hlt, hle, hc⟩ := h.finishing t g token epoch ht
    exact ⟨hlt, hle, fun he => (hcalled g hlt).trans (hc he)⟩

/-- A new epoch makes every earlier one void. -/
theorem Epochs.bump (h : Epochs s) : Epochs { s with epoch := s.epoch + 1 } := by
  refine ⟨h.pending, h.starting, ?_, ?_, h.clears, h.unborn⟩
  · intro t f token epoch ht
    obtain ⟨hlt, hle, -⟩ := h.finishing t f token epoch ht
    exact ⟨hlt, Nat.le_succ_of_le hle, fun he => by simp only at he; omega⟩
  · intro j hj x epoch called hk
    obtain ⟨hle, -⟩ := h.saves j hj x epoch called hk
    exact ⟨Nat.le_succ_of_le hle, fun he => by simp only at he; omega⟩

theorem Epochs.setPending (h : Epochs s) {o : Option ℕ}
    (ho : ∀ f ∈ o, f < s.begun ∧ (s.flows f).called = s.signOuts) :
    Epochs { s with pending := o } :=
  ⟨ho, h.starting, h.finishing, h.saves, h.clears, h.unborn⟩

theorem Epochs.release (h : Epochs s) (f : ℕ) : Epochs (s.release f) := by
  refine h.setPending ?_
  intro g hg
  split at hg
  · cases hg
  · exact h.pending g hg

/-- A sign-out, while no `signInStart` waits. -/
theorem Epochs.signOut (h : Epochs s) (hok : Orderly s .signOut) :
    Epochs { s with pending := none, epoch := s.epoch + 1, signOuts := s.signOuts + 1 } := by
  refine ⟨by simp, ?_, ?_, ?_, ?_, h.unborn⟩
  · intro t called ht
    have hlt : t < s.next := by
      by_contra hge
      have := h.unborn t (by omega)
      rw [this] at ht
      cases ht
    have := hok t hlt
    simp only at ht
    simp [ht, Pc.isStarting] at this
  · intro t f token epoch ht
    obtain ⟨hlt, hle, -⟩ := h.finishing t f token epoch ht
    exact ⟨hlt, Nat.le_succ_of_le hle, fun he => by simp only at he; omega⟩
  · intro j hj x epoch called hk
    obtain ⟨hle, -⟩ := h.saves j hj x epoch called hk
    exact ⟨Nat.le_succ_of_le hle, fun he => by simp only at he; omega⟩
  · exact fun j hj k hk => Nat.le_succ_of_le (h.clears j hj k hk)

/-- What the epochs read of a state, but for the chain. -/
def State.frame (s : State) : State :=
  { s with
    vault := {}
    memory := none
    chain := []
    jobs := 0
    results := fun _ => none
    log := [] }

/-- A job makes a step: the rest of the chain stays. -/
structure Follows (s s' : State) : Prop where
  frame : s'.frame = s.frame
  chain : ∀ j ∈ s'.chain, ∃ i ∈ s.chain, i.kind = j.kind

theorem Follows.of_chain (hframe : s'.frame = s.frame) (hchain : s'.chain = s.chain) :
    Follows s s' :=
  ⟨hframe, fun j hj => ⟨j, hchain ▸ hj, rfl⟩⟩

theorem Follows.trans {s'' : State} (h : Follows s s') (h' : Follows s' s'') : Follows s s'' := by
  refine ⟨h'.frame.trans h.frame, ?_⟩
  intro j hj
  obtain ⟨i, hi, hk⟩ := h'.chain j hj
  obtain ⟨i', hi', hk'⟩ := h.chain i hi
  exact ⟨i', hi', hk'.trans hk⟩

theorem Follows.epochs (hf : Follows s s') (h : Epochs s) : Epochs s' := by
  have hc : Epochs { s.frame with chain := s'.chain } := by
    refine ⟨h.pending, h.starting, h.finishing, ?_, ?_, h.unborn⟩
    · intro j hj x epoch called hk
      obtain ⟨i, hi, hik⟩ := hf.chain j hj
      exact h.saves i hi x epoch called (hik.trans hk)
    · intro j hj k hk
      obtain ⟨i, hi, hik⟩ := hf.chain j hj
      exact h.clears i hi k (hik.trans hk)
  rw [← hf.frame] at hc
  exact ⟨hc.pending, hc.starting, hc.finishing, hc.saves, hc.clears, hc.unborn⟩

theorem Follows.settle (hf : Follows s s') (j : Job) (r : Result) : Follows s (s'.settle j r) := by
  refine hf.trans ⟨rfl, ?_⟩
  intro i hi
  exact ⟨i, List.mem_of_mem_tail hi, rfl⟩

theorem Follows.goto (hf : Follows s s') {j : Job} (hj : j ∈ s.chain) (pc : JobPc) :
    Follows s (s'.goto j pc) := by
  refine ⟨hf.frame, ?_⟩
  intro i hi
  rcases List.mem_cons.mp hi with rfl | hi
  · exact ⟨j, hj, rfl⟩
  · exact hf.chain i (List.mem_of_mem_tail hi)

theorem follows_recordLoad (s : State) (o : Option Saved) : Follows s (s.recordLoad o) := by
  unfold State.recordLoad
  split
  · exact .of_chain rfl rfl
  · exact .of_chain rfl rfl

theorem Follows.complete (hf : Follows s s') (origin : SaveFrom) :
    Follows s (s'.complete origin) := by
  cases origin with
  | refresh => exact hf
  | signIn called => exact hf.trans (.of_chain rfl rfl)

theorem follows_beginSave (env : Env) {j : Job} (hj : j ∈ s.chain) (x : Saved) (epoch : ℕ)
    (origin : SaveFrom) : Follows s (s.beginSave env j x epoch origin) := by
  have hself : Follows s s := .of_chain rfl rfl
  unfold State.beginSave
  split
  · exact hself.settle j _
  · have hload : Follows s (if origin = .refresh then s.recordLoad (s.load env) else s) := by
      split
      · exact follows_recordLoad s _
      · exact hself
    dsimp only
    split
    · exact hload.settle j _
    · have hsaved : Follows s
          ((if origin = .refresh then s.recordLoad (s.load env) else s).record (.saved x)) :=
        hload.trans (.of_chain rfl rfl)
      split
      · exact hsaved.goto hj _
      · refine Follows.settle (Follows.complete ?_ origin) j _
        exact hsaved.trans (.of_chain rfl rfl)

theorem follows_work (env : Env) {j : Job} (hj : j ∈ s.chain) (w : Write) :
    Follows s (s.work env j w) := by
  have hself : Follows s s := .of_chain rfl rfl
  have hvault : ∀ vault, Follows s { s with vault := vault } := fun _ => .of_chain rfl rfl
  unfold State.work
  split
  · exact follows_beginSave env hj _ _ _
  · dsimp only
    split
    · exact (hvault _).goto hj _
    · exact hself.settle j _
    · exact (hvault _).settle j _
  · dsimp only
    split
    · exact ((hvault _).complete _).settle j _
    · exact hself.settle j _
    · exact (hvault _).settle j _
  · exact (follows_recordLoad s _).settle j _
  · dsimp only
    have hclear : Follows s (s.clearNow env w) := .of_chain rfl rfl
    split
    · refine Follows.settle ?_ j _
      exact hclear.trans (.of_chain rfl rfl)
    · exact hclear.settle j _
  · dsimp only
    have hload := follows_recordLoad s (s.load env)
    split
    · exact hload.settle j _
    · refine Follows.settle ?_ j _
      exact hload.trans (.of_chain rfl rfl)

end Epochs

/-! What the job that runs does to the stores. -/

section Store
variable {env : Env} {s s' : State}

theorem Consistent.mono {log log' : List Event} {vault : Bag} (h : Consistent log vault)
    (hsub : ∀ e ∈ log, e ∈ log') : Consistent log' vault :=
  fun t p ht hp => hsub _ (h t p ht hp)

theorem Kept.congr (h : Kept env s) (hvault : s'.vault = s.vault) (hmemory : s'.memory = s.memory)
    (hchain : s'.chain = s.chain) (hlog : s'.log = s.log) (houts : s.signOuts ≤ s'.signOuts) :
    Kept env s' := by
  refine ⟨?_, ?_, ?_, ?_, ?_, ?_⟩
  · rw [hchain]
    exact h.behind
  · rw [hmemory, hlog]
    exact h.memory
  · rw [hvault, hmemory, hlog]
    exact h.earned
  · rw [hvault, hmemory]
    exact h.mode
  · rw [hlog]
    exact fun k hk => (h.outs k hk).trans houts
  · rw [hlog]
    exact h.justified

theorem Entitled.congr {x : Saved} {origin : SaveFrom} (h : Entitled s x origin)
    (hvault : s'.vault.token = s.vault.token)
    (hlog : ∀ k, Event.signedOut k ∈ s'.log → Event.signedOut k ∈ s.log) :
    Entitled s' x origin := by
  cases origin with
  | refresh => exact hvault.trans h
  | signIn called => exact fun k hk => h k (hlog k hk)

theorem Store.congr (h : Store env s) (hvault : s'.vault = s.vault) (hmemory : s'.memory = s.memory)
    (hchain : s'.chain = s.chain) (hlog : s'.log = s.log) (houts : s.signOuts ≤ s'.signOuts) :
    Store env s' := by
  refine ⟨h.toKept.congr hvault hmemory hchain hlog houts, ?_, ?_⟩
  · rw [hvault, hchain, hlog]
    exact h.pair
  · intro j hj hpc
    obtain ⟨hon, x, epoch, origin, hk, hsaved, hent, hp⟩ := h.writing j (hchain ▸ hj) hpc
    refine ⟨hon, x, epoch, origin, hk, hlog ▸ hsaved, hent.congr (by rw [hvault]) ?_, hvault ▸ hp⟩
    exact fun k hk => hlog ▸ hk

/-- A job that waits for its turn. -/
theorem Store.serial (h : Store env s) (kind : JobKind) : Store env (s.serial kind) := by
  rcases hchain : s.chain with _ | ⟨i, rest⟩
  · have hc : Consistent s.log s.vault := h.pair (by simp [hchain])
    refine ⟨⟨?_, h.memory, h.earned, h.mode, h.outs, h.justified⟩, fun _ => hc, ?_⟩
    · simp [State.serial, hchain]
    · intro j hj hpc
      simp only [State.serial, hchain, List.nil_append, List.head?_cons, Option.mem_def,
        Option.some.injEq] at hj
      exact absurd (hj ▸ rfl) hpc
  · have hhead : (s.serial kind).chain.head? = s.chain.head? := by simp [State.serial, hchain]
    refine ⟨⟨?_, h.memory, h.earned, h.mode, h.outs, h.justified⟩, ?_, ?_⟩
    · intro j hj
      simp only [State.serial, hchain, List.cons_append, List.tail_cons, List.mem_append,
        List.mem_singleton] at hj
      rcases hj with hj | rfl
      · exact h.behind j (by simpa [hchain] using hj)
      · rfl
    · rw [hhead]
      exact h.pair
    · rw [hhead]
      exact h.writing

/-- Something goes on record that is no sign-out. -/
theorem Kept.record (h : Kept env s) {e : Event} (hallowed : Allowed s.log e)
    (he : ∀ k, e ≠ .signedOut k) : Kept env (s.record e) := by
  have hsub : ∀ x ∈ s.log, x ∈ s.log ++ [e] := fun x hx => List.mem_append_left _ hx
  have hout : ∀ k, Event.signedOut k ∈ s.log ++ [e] → Event.signedOut k ∈ s.log := by
    intro k hk
    rcases List.mem_append.mp hk with hk | hk
    · exact hk
    · exact absurd (List.mem_singleton.mp hk).symm (he k)
  refine ⟨h.behind, fun x hx => hsub _ (h.memory x hx), ?_, h.mode,
    fun k hk => h.outs k (hout k hk), h.justified.snoc hallowed⟩
  intro hstored k hk
  obtain ⟨called, hc, hle⟩ := h.earned hstored k (hout k hk)
  exact ⟨called, hsub _ hc, hle⟩

/-- What is loaded was saved as a pair, and is there by right. -/
theorem Kept.load (h : Kept env s) (hc : Consistent s.log s.vault) {x : Saved}
    (hx : s.load env = some x) :
    Event.saved x ∈ s.log ∧ Earned s.log ∧
      (env.persisted = true → s.vault.token = some x.token) := by
  unfold State.load at hx
  split at hx
  · next hp =>
    refine ⟨h.memory x hx, h.earned (Or.inr (by simp [hx])), ?_⟩
    intro hp'
    rw [hp] at hp'
    cases hp'
  · split at hx
    · next token profile ht hpr =>
      split at hx
      · obtain rfl := Option.some.inj hx
        exact ⟨hc token profile ht hpr, h.earned (Or.inl (by simp [ht])), fun _ => ht⟩
      · cases hx
    · cases hx

theorem Kept.recordLoad (h : Kept env s) (hc : Consistent s.log s.vault) :
    Kept env (s.recordLoad (s.load env)) := by
  unfold State.recordLoad
  split
  · next x hx =>
    obtain ⟨hsaved, hearned, -⟩ := h.load hc hx
    exact h.record ⟨hsaved, hearned⟩ (by simp)
  · exact h

theorem recordLoad_eq (s : State) (o : Option Saved) :
    s.recordLoad o = { s with log := (s.recordLoad o).log } ∧
      (∀ e ∈ s.log, e ∈ (s.recordLoad o).log) ∧
      ∀ k, Event.signedOut k ∈ (s.recordLoad o).log → Event.signedOut k ∈ s.log := by
  unfold State.recordLoad
  split
  · refine ⟨rfl, fun e he => List.mem_append_left _ he, ?_⟩
    intro k hk
    simpa [State.record] using hk
  · exact ⟨rfl, fun e he => he, fun k hk => hk⟩

/-- The job that runs ends, and leaves a pair. -/
theorem Kept.settle (h : Kept env s) (hc : Consistent s.log s.vault) (j : Job) (r : Result) :
    Store env (s.settle j r) := by
  refine ⟨⟨?_, h.memory, h.earned, h.mode, h.outs, h.justified⟩, fun _ => hc, ?_⟩
  · intro i hi
    exact h.behind i (List.mem_of_mem_tail hi)
  · intro i hi hpc
    have hmem : i ∈ s.chain.tail := List.mem_of_mem_head? hi
    exact absurd (h.behind i hmem) hpc

/-- The job that runs goes on with its save. -/
theorem Kept.goto (h : Kept env s) {j : Job} {x : Saved} {epoch : ℕ} {origin : SaveFrom}
    {pc : JobPc} (hp : env.persisted = true) (hk : j.kind = .save x epoch origin)
    (hsaved : Event.saved x ∈ s.log)
    (hent : Entitled s x origin) (hpair : pc ≠ .token → Consistent s.log s.vault)
    (hprofile : pc = .token → s.vault.profile = some x.profile) : Store env (s.goto j pc) := by
  refine ⟨⟨h.behind, h.memory, h.earned, h.mode, h.outs, h.justified⟩, ?_, ?_⟩
  · intro hpc
    exact hpair (hpc _ rfl)
  · intro i hi _
    obtain rfl := Option.some.inj hi
    exact ⟨hp, x, epoch, origin, hk, hsaved, hent.congr rfl (fun _ hk => hk), hprofile⟩

/-- A sign-in is stored, or a refresh over its own token. -/
theorem Kept.complete (h : Kept env s) {origin : SaveFrom} {vault : Bag} {memory : Option Saved}
    (hmode : (env.persisted = false → vault.token = none) ∧ (env.persisted = true → memory = none))
    (hmemory : ∀ y ∈ memory, Event.saved y ∈ s.log)
    (hout : ∀ called, origin = .signIn called → ∀ k, Event.signedOut k ∈ s.log → k ≤ called)
    (hold : origin = .refresh → s.vault.token ≠ none ∨ s.memory ≠ none) :
    Kept env ({ s with vault := vault, memory := memory }.complete origin) := by
  cases origin with
  | refresh =>
    exact ⟨h.behind, hmemory, fun _ => h.earned (hold rfl), hmode, h.outs, h.justified⟩
  | signIn called =>
    have hsub : ∀ e ∈ s.log, e ∈ s.log ++ [Event.completed called] :=
      fun e he => List.mem_append_left _ he
    have hlog : ∀ k, Event.signedOut k ∈ s.log ++ [Event.completed called] →
        Event.signedOut k ∈ s.log := by
      intro k hk
      simpa using hk
    refine ⟨h.behind, fun y hy => hsub _ (hmemory y hy), ?_, hmode,
      fun k hk => h.outs k (hlog k hk), h.justified.snoc trivial⟩
    intro _ k hk
    exact ⟨called, List.mem_append_right _ (by simp), hout called rfl k (hlog k hk)⟩

theorem complete_frame (s : State) (origin : SaveFrom) :
    (s.complete origin).vault = s.vault ∧ ∀ e ∈ s.log, e ∈ (s.complete origin).log := by
  cases origin with
  | refresh => exact ⟨rfl, fun e he => he⟩
  | signIn called => exact ⟨rfl, fun e he => List.mem_append_left _ he⟩

/-- `save` makes its checks. -/
theorem Store.beginSave (h : Store env s) (hc : Consistent s.log s.vault) {j : Job} {x : Saved}
    {epoch : ℕ} {origin : SaveFrom} (hk : j.kind = .save x epoch origin)
    (hsignIn : ∀ called, origin = .signIn called → epoch = s.epoch → called = s.signOuts) :
    Store env (s.beginSave env j x epoch origin) := by
  unfold State.beginSave
  split
  · exact h.toKept.settle hc j _
  · next hepoch =>
    rw [not_not] at hepoch
    -- a refresh has looked at the stored token
    obtain ⟨s', hs', hkept, hvault, hmemory, hsub, hout⟩ : ∃ s', s' =
        (if origin = .refresh then s.recordLoad (s.load env) else s) ∧ Kept env s' ∧
          s'.vault = s.vault ∧ s'.memory = s.memory ∧ (∀ e ∈ s.log, e ∈ s'.log) ∧
          ∀ k, Event.signedOut k ∈ s'.log → Event.signedOut k ∈ s.log := by
      refine ⟨_, rfl, ?_⟩
      split
      · obtain ⟨heq, hsub, hout⟩ := recordLoad_eq s (s.load env)
        exact ⟨h.toKept.recordLoad hc, by rw [heq], by rw [heq], hsub, hout⟩
      · exact ⟨h.toKept, rfl, rfl, fun e he => he, fun k hk => hk⟩
    dsimp only
    rw [← hs']
    have hc' : Consistent s'.log s'.vault := by
      rw [hvault]
      exact hc.mono hsub
    split
    · exact hkept.settle hc' j _
    · next hmatch =>
      have hload : origin = .refresh → ∃ y, s.load env = some y ∧ y.token = x.token := by
        intro ho
        have : (s.load env).map Saved.token = some x.token := by
          by_contra hne
          exact hmatch ⟨ho, hne⟩
        exact Option.map_eq_some_iff.mp this
      have hnew := hkept.record (e := .saved x) trivial (by simp)
      have hcalled : ∀ called, origin = .signIn called →
          ∀ k, Event.signedOut k ∈ s.log → k ≤ called := by
        intro called ho k hk
        rw [hsignIn called ho hepoch]
        exact h.outs k hk
      have houtNew : ∀ k, Event.signedOut k ∈ (s'.record (.saved x)).log →
          Event.signedOut k ∈ s.log := by
        intro k hk
        refine hout k ?_
        simpa [State.record] using hk
      split
      · next hp =>
        refine hnew.goto hp hk (by simp [State.record]) ?_ ?_ (by simp)
        · cases origin with
          | refresh =>
            obtain ⟨y, hy, hty⟩ := hload rfl
            have := (h.toKept.load hc hy).2.2 hp
            simp only [Entitled, State.record, hvault, this, hty]
          | signIn called => exact fun k hk => hcalled called rfl k (houtNew k hk)
        · exact fun _ => hc'.mono fun e he => List.mem_append_left _ he
      · next hp =>
        have hp : env.persisted = false := by simpa using hp
        have hdone := @Kept.complete env (s'.record (.saved x)) hnew origin
          (s'.record (.saved x)).vault (some x) ⟨hnew.mode.1, by simp [hp]⟩
          (by simp [State.record]) (fun called ho k hk => hcalled called ho k (houtNew k hk)) ?_
        · obtain ⟨hv, -⟩ := complete_frame { s'.record (.saved x) with memory := some x } origin
          refine hdone.settle ?_ j _
          intro t p ht
          have hnone := hnew.mode.1 hp
          rw [hv] at ht
          cases ht.symm.trans hnone
        · intro ho
          obtain ⟨y, hy, -⟩ := hload ho
          right
          simp only [State.load, hp, if_true] at hy
          simp [State.record, hmemory, hy]

theorem Consistent.of_free {x : Saved} {profile : Option String} (hfree : s.Free x)
    (hprofile : profile = some x.profile) (hsaved : Event.saved x ∈ s.log) :
    Consistent s.log { s.vault with profile := profile } := by
  intro t p ht hp
  have ht := hfree t ht
  have hp : x.profile = p := Option.some.inj (hprofile.symm.trans hp)
  rw [ht, ← hp]
  exact hsaved

/-- Only a save has more than one step. -/
theorem Store.pc_queued (h : Store env s) {j : Job} (hj : s.chain.head? = some j)
    (hk : ∀ x epoch origin, j.kind ≠ .save x epoch origin) : j.pc = .queued := by
  by_contra hpc
  obtain ⟨-, x, epoch, origin, hsave, -⟩ := h.writing j hj hpc
  exact hk x epoch origin hsave

/-- The profile of a save is written, or not. -/
theorem Store.workProfile (h : Store env s) {j : Job} (hj : s.chain.head? = some j)
    {x : Saved} {epoch : ℕ} {origin : SaveFrom} (hk : j.kind = .save x epoch origin)
    (hpc : j.pc = .profile) {w : Write} (hok : w = .lost → s.Free x) :
    Store env (s.work env j w) := by
  obtain ⟨hp, x', epoch', origin', hk', hsaved, hent, -⟩ := h.writing j hj (by simp [hpc])
  rw [hk] at hk'
  obtain ⟨rfl, rfl, rfl⟩ := JobKind.save.inj hk'
  have hc : Consistent s.log s.vault := by
    refine h.pair ?_
    intro i hi
    obtain rfl := Option.some.inj (hj.symm.trans hi)
    simp [hpc]
  have hkept : Kept env { s with vault := { s.vault with profile := some x.profile } } :=
    ⟨h.behind, h.memory, h.earned, h.mode, h.outs, h.justified⟩
  simp only [State.work, hk, hpc]
  cases w with
  | ok =>
    exact hkept.goto hp hk hsaved (hent.congr rfl fun _ hk => hk) (fun hne => absurd rfl hne)
      fun _ => rfl
  | failed => exact h.toKept.settle hc j _
  | lost => exact hkept.settle (Consistent.of_free (hok rfl) rfl hsaved) j _

/-- The token of a save is written, or not. -/
theorem Store.workToken (h : Store env s) {j : Job}
    (hj : s.chain.head? = some j) {x : Saved} {epoch : ℕ} {origin : SaveFrom}
    (hk : j.kind = .save x epoch origin) (hpc : j.pc = .token) {w : Write}
    (hfree : w = .failed → s.Free x) (hlost : w = .lost → origin = .refresh) :
    Store env (s.work env j w) := by
  obtain ⟨hp, x', epoch', origin', hk', hsaved, hent, hprofile⟩ :=
    h.writing j hj (by simp [hpc])
  rw [hk] at hk'
  obtain ⟨rfl, rfl, rfl⟩ := JobKind.save.inj hk'
  have hprofile := hprofile hpc
  have hwritten : Consistent s.log { s.vault with token := some x.token } := by
    intro t p ht hp
    obtain rfl := Option.some.inj ht
    obtain rfl : x.profile = p := Option.some.inj (hprofile.symm.trans hp)
    exact hsaved
  simp only [State.work, hk, hpc]
  cases w with
  | ok =>
    have hdone := @Kept.complete env s h.toKept origin { s.vault with token := some x.token }
      s.memory ⟨by simp [hp], h.mode.2⟩ h.memory
      (fun called ho k hout => by subst ho; exact hent k hout)
      (fun ho => by subst ho; exact Or.inl (by rw [hent]; simp))
    obtain ⟨hv, hsub⟩ :=
      complete_frame { s with vault := { s.vault with token := some x.token } } origin
    refine hdone.settle ?_ j _
    intro t p ht hp
    rw [hv] at ht hp
    exact hwritten.mono hsub t p ht hp
  | failed =>
    refine h.toKept.settle ?_ j _
    have := Consistent.of_free (hfree rfl) rfl hsaved
    rwa [← hprofile] at this
  | lost =>
    have ho := hlost rfl
    subst ho
    have hsame : s.vault.token = some x.token := hent
    have hkept : Kept env { s with vault := { s.vault with token := some x.token } } :=
      ⟨h.behind, h.memory, fun _ => h.earned (Or.inl (by simp [hsame])), ⟨by simp [hp], h.mode.2⟩,
        h.outs, h.justified⟩
    exact hkept.settle hwritten j _

/-- The scope is emptied, or the write fails. -/
theorem Kept.clearNow (h : Kept env s) (w : Write) : Kept env (s.clearNow env w) := by
  have htoken : (s.clearNow env w).vault.token ≠ none → s.vault.token ≠ none := by
    intro hne
    simp only [State.clearNow] at hne
    split at hne
    · exact absurd rfl hne
    · exact hne
  refine ⟨h.behind, by simp [State.clearNow], ?_, ⟨?_, by simp [State.clearNow]⟩, h.outs,
    h.justified⟩
  · rintro (hne | hne)
    · exact h.earned (Or.inl (htoken hne))
    · exact absurd rfl hne
  · intro hp
    simpa [State.clearNow, hp] using h.mode.1 hp

theorem Consistent.clearNow (hc : Consistent s.log s.vault) (w : Write) :
    Consistent (s.clearNow env w).log (s.clearNow env w).vault := by
  intro t p ht hp
  simp only [State.clearNow] at ht hp
  split at ht
  · cases ht
  · next hkeep =>
    rw [if_neg hkeep] at hp
    exact hc t p ht hp

theorem clearNow_token (h : Kept env s) {w : Write} (hw : cleared env w = true) :
    (s.clearNow env w).vault.token = none ∧ (s.clearNow env w).memory = none := by
  refine ⟨?_, rfl⟩
  simp only [State.clearNow]
  simp only [cleared, Bool.or_eq_true, Bool.not_eq_true', decide_eq_true_eq] at hw
  split
  · rfl
  · next hkeep =>
    rcases hw with hp | rfl
    · exact h.mode.1 hp
    · have hp : env.persisted = false := by simpa using hkeep
      exact h.mode.1 hp

/-- A sign-out resolves where both stores are empty. -/
theorem Kept.signedOut (h : Kept env s) {k : ℕ} (hk : k ≤ s.signOuts)
    (hempty : s.vault.token = none ∧ s.memory = none) : Kept env (s.record (.signedOut k)) := by
  refine ⟨h.behind, by simp [State.record, hempty.2], ?_, h.mode, ?_, h.justified.snoc trivial⟩
  · simp [State.record, hempty.1, hempty.2]
  · intro k' hk'
    rcases List.mem_append.mp hk' with hk' | hk'
    · exact h.outs k' hk'
    · simp only [List.mem_singleton, Event.signedOut.injEq] at hk'
      exact hk' ▸ hk

/-- The job that runs makes its next step. -/
theorem Store.work (h : Store env s) (he : Epochs s) {j : Job} (hj : s.chain.head? = some j)
    {w : Write} (hok : Orderly s (.work w)) : Store env (s.work env j w) := by
  have hmem : j ∈ s.chain := List.mem_of_mem_head? hj
  have hok := hok j hj
  have hqueued : j.pc = .queued → Consistent s.log s.vault := by
    intro hpc
    refine h.pair ?_
    intro i hi
    obtain rfl := Option.some.inj (hj.symm.trans hi)
    simp [hpc]
  cases hk : j.kind with
  | save x epoch origin =>
    have hok := hok (x, origin) (by simp [hk, JobKind.saves])
    cases hpc : j.pc with
    | queued =>
      have : s.work env j w = s.beginSave env j x epoch origin := by
        simp only [State.work, hk, hpc]
      rw [this]
      refine h.beginSave (hqueued hpc) hk ?_
      intro called ho
      subst ho
      exact (he.saves j hmem x epoch called hk).2
    | profile => exact h.workProfile hj hk hpc (hok.1 hpc)
    | token => exact h.workToken hj hk hpc (hok.2 hpc).1 (hok.2 hpc).2
  | settled =>
    have hc : Consistent s.log s.vault := hqueued (h.pc_queued hj (by simp [hk]))
    simp only [State.work, hk]
    obtain ⟨heq, hsub, -⟩ := recordLoad_eq s (s.load env)
    refine (h.toKept.recordLoad hc).settle ?_ j _
    rw [heq]
    exact hc.mono hsub
  | clear k =>
    have hc : Consistent s.log s.vault := hqueued (h.pc_queued hj (by simp [hk]))
    simp only [State.work, hk]
    split
    · next hw =>
      have hkept := (h.toKept.clearNow w).signedOut (he.clears j hmem k hk)
        (clearNow_token h.toKept hw)
      refine hkept.settle ?_ j _
      exact (hc.clearNow w).mono fun e he => List.mem_append_left _ he
    · exact (h.toKept.clearNow w).settle (hc.clearNow w) j _
  | revoke token =>
    have hc : Consistent s.log s.vault := hqueued (h.pc_queued hj (by simp [hk]))
    simp only [State.work, hk]
    obtain ⟨heq, hsub, -⟩ := recordLoad_eq s (s.load env)
    have hkept := h.toKept.recordLoad hc
    have hc' : Consistent (s.recordLoad (s.load env)).log (s.recordLoad (s.load env)).vault := by
      rw [heq]
      exact hc.mono hsub
    split
    · exact hkept.settle hc' j _
    · exact (hkept.clearNow w).settle (hc'.clearNow w) j _

/-- The app ends. -/
theorem Store.crash (h : Store env s) (hok : Orderly s .crash) : Store env s.crash := by
  have hc : Consistent s.log s.vault := by
    by_cases hhead : ∀ j ∈ s.chain.head?, j.pc ≠ .token
    · exact h.pair hhead
    · simp only [not_forall, not_not] at hhead
      obtain ⟨j, hj, hpc⟩ := hhead
      obtain ⟨-, x, epoch, origin, hk, hsaved, -, hprofile⟩ := h.writing j hj (by simp [hpc])
      have hfree := hok j hj (x, origin) (by simp [hk, JobKind.saves]) hpc
      have := Consistent.of_free hfree rfl hsaved
      rwa [← hprofile hpc] at this
  refine ⟨⟨by simp [State.crash, State.start], by simp [State.crash, State.start], ?_,
    ⟨h.mode.1, fun _ => rfl⟩, h.outs, h.justified⟩, fun _ => hc, by simp [State.crash, State.start]⟩
  rintro (hne | hne)
  · exact h.earned (Or.inl hne)
  · exact absurd rfl hne

end Store

/-! The steps. -/

section Step
variable {env : Env} {s s' : State}

theorem Sound.endTask (h : Sound env s) (t : ℕ) : Sound env (s.endTask t) :=
  ⟨h.store.congr rfl rfl rfl rfl le_rfl, h.epochs.endTask t⟩

theorem Sound.release (h : Sound env s) (f : ℕ) : Sound env (s.release f) :=
  ⟨h.store.congr rfl rfl rfl rfl le_rfl, h.epochs.release f⟩

/-- A read, a clear of a sign-out that was called, or a save over an unchanged token. -/
theorem Sound.serial (h : Sound env s) {kind : JobKind}
    (hsave : ∀ x epoch called, kind = .save x epoch (.signIn called) →
      epoch ≤ s.epoch ∧ (epoch = s.epoch → called = s.signOuts))
    (hclear : ∀ k, kind = .clear k → k ≤ s.signOuts) : Sound env (s.serial kind) :=
  ⟨h.store.serial kind, h.epochs.serial hsave hclear⟩

theorem Sound.settled (h : Sound env s) : Sound env (s.serial .settled) :=
  h.serial (by simp) (by simp)

/-- A task goes on to where no epoch is held. -/
theorem Sound.setTask (h : Sound env s) {t : ℕ} (ht : t < s.next) {pc : Pc}
    (hstart : ∀ called, pc ≠ .starting called)
    (hfinish : ∀ f token epoch, pc ≠ .finishing f token epoch) : Sound env (s.setTask t pc) :=
  ⟨h.store.congr rfl rfl rfl rfl le_rfl,
    h.epochs.setTask ht (fun called hpc => absurd hpc (hstart called))
      fun f token epoch hpc => absurd hpc (hfinish f token epoch)⟩

theorem Sound.unsettled (h : Sound env s) (epoch : ℕ) :
    Sound env (if epoch ≠ s.epoch then s.serial .settled else s) := by
  split
  · exact h.settled
  · exact h

theorem Sound.polled (h : Sound env s) {t f : ℕ} (ht : t < s.next) {a : Answer}
    (hs : s.polled t f a = some s') : Sound env s' := by
  have hflow : Sound env (s.setFlow f { s.flows f with inflight := false }) :=
    ⟨h.store.congr rfl rfl rfl rfl le_rfl, h.epochs.setFlow (Or.inl rfl)⟩
  cases a with
  | token token =>
    simp only [State.polled] at hs
    rw [← Option.some.inj hs]
    split
    · exact hflow.endTask t
    · next hpending =>
      rw [not_not] at hpending
      have hnow : Epochs ((s.setFlow f { s.flows f with inflight := false }).setFlow f
          { (s.setFlow f { s.flows f with inflight := false }).flows f with finishing := true }) :=
        hflow.epochs.setFlow (Or.inl rfl)
      refine ⟨hflow.store.congr rfl rfl rfl rfl le_rfl, hnow.setTask ht (by simp) ?_⟩
      intro g token' epoch hpc
      obtain ⟨rfl, -, rfl⟩ := Pc.finishing.inj hpc
      obtain ⟨hlt, hcalled⟩ := hnow.pending _ hpending
      exact ⟨hlt, le_rfl, fun _ => hcalled⟩
  | waiting => exact Option.some.inj hs ▸ hflow.endTask t
  | network => exact Option.some.inj hs ▸ hflow.endTask t
  | failed => exact Option.some.inj hs ▸ (hflow.release f).endTask t
  | _ => cases hs

/-- A sign-in begins: it was called after the last sign-out. -/
theorem Sound.begin (h : Sound env s) {t called : ℕ} (ht : s.tasks t = some (.starting called)) :
    Sound env ({ s.setFlow s.begun { called := called } with
      epoch := s.epoch + 1
      pending := some s.begun
      begun := s.begun + 1 }.endTask t) := by
  have hcalled := h.epochs.starting t called ht
  have hflow : Epochs (s.setFlow s.begun { called := called }) := h.epochs.setFlow (Or.inr rfl)
  have hbegun : Epochs { s.setFlow s.begun { called := called } with begun := s.begun + 1 } := by
    refine ⟨?_, hflow.starting, ?_, hflow.saves, hflow.clears, hflow.unborn⟩
    · intro f hf
      obtain ⟨hlt, hc⟩ := hflow.pending f hf
      exact ⟨Nat.lt_succ_of_lt hlt, hc⟩
    · intro t' f token epoch ht'
      obtain ⟨hlt, hrest⟩ := hflow.finishing t' f token epoch ht'
      exact ⟨Nat.lt_succ_of_lt hlt, hrest⟩
  apply Sound.endTask
  refine ⟨h.store.congr rfl rfl rfl rfl le_rfl, ?_⟩
  refine hbegun.bump.setPending ?_
  intro f hf
  obtain rfl := Option.some.inj hf
  exact ⟨Nat.lt_succ_self _, by simp [State.setFlow, hcalled]⟩

/-- The profile of a sign-in is read, and its save is queued if nothing came between. -/
theorem Sound.queueSave (h : Sound env s) {t f epoch : ℕ} {token p : String}
    (ht : s.tasks t = some (.finishing f token epoch)) (htn : t < s.next)
    (he : epoch = s.epoch) :
    Sound env (({ s with epoch := s.epoch + 1 }.serial
      (.save ⟨token, p⟩ (s.epoch + 1) (.signIn (s.flows f).called))).setTask t
        (.storing f (s.epoch + 1) s.jobs)) := by
  have hcalled := (h.epochs.finishing t f token epoch ht).2.2 he
  have hbump : Sound env { s with epoch := s.epoch + 1 } :=
    ⟨h.store.congr rfl rfl rfl rfl le_rfl, h.epochs.bump⟩
  refine Sound.setTask (hbump.serial ?_ (by simp)) htn (by simp) (by simp)
  intro x e called hk
  simp only [JobKind.save.injEq, SaveFrom.signIn.injEq] at hk
  obtain ⟨-, rfl, rfl⟩ := hk
  exact ⟨le_rfl, fun _ => hcalled⟩

theorem Sound.resume (h : Sound env s) {t : ℕ} {a : Answer} {pc : Pc} (ht : s.tasks t = some pc)
    (hs : s.resume t a pc = some s') : Sound env s' := by
  have htn : t < s.next := by
    by_contra hge
    have := h.epochs.unborn t (by omega)
    rw [this] at ht
    cases ht
  cases pc with
  | settling epoch refresh job =>
    simp only [State.resume] at hs
    split at hs
    · rw [← Option.some.inj hs]
      split
      · exact h.setTask htn (by simp) (by simp)
      · exact h.endTask t
    · exact Option.some.inj hs ▸ h.endTask t
    · cases hs
  | refreshing epoch x =>
    simp only [State.resume] at hs
    split at hs
    · rw [← Option.some.inj hs]
      exact (h.serial (by simp) (by simp)).setTask htn (by simp) (by simp)
    · rw [← Option.some.inj hs]
      exact (h.serial (by simp) (by simp)).setTask htn (by simp) (by simp)
    · exact Option.some.inj hs ▸ (h.unsettled epoch).endTask t
    · cases hs
  | saving epoch job =>
    simp only [State.resume] at hs
    split at hs
    · exact Option.some.inj hs ▸ (h.unsettled epoch).endTask t
    · exact Option.some.inj hs ▸ h.settled.endTask t
    · exact Option.some.inj hs ▸ (h.unsettled epoch).endTask t
    · cases hs
  | revoking job =>
    simp only [State.resume] at hs
    split at hs
    · exact Option.some.inj hs ▸ h.settled.endTask t
    · exact Option.some.inj hs ▸ h.endTask t
    · cases hs
  | starting called =>
    simp only [State.resume] at hs
    split at hs
    · exact Option.some.inj hs ▸ h.begin ht
    · exact Option.some.inj hs ▸ h.endTask t
    · cases hs
  | polling f => exact h.polled htn hs
  | finishing f token epoch =>
    simp only [State.resume] at hs
    split at hs
    · rw [← Option.some.inj hs]
      split
      · exact (h.release f).endTask t
      · next he => exact h.queueSave ht htn (not_not.mp he)
    · exact Option.some.inj hs ▸ (h.release f).endTask t
    · cases hs
  | storing f saveEpoch job =>
    simp only [State.resume] at hs
    split at hs
    · rw [← Option.some.inj hs]
      split
      · exact h.settled.setTask htn (by simp) (by simp)
      · exact (h.release f).endTask t
    · exact Option.some.inj hs ▸ (h.release f).endTask t
    · cases hs
  | confirming f job =>
    simp only [State.resume] at hs
    split at hs
    · exact Option.some.inj hs ▸ (h.release f).endTask t
    · cases hs

theorem Sound.signInPoll (h : Sound env s) (clock : Clock) : Sound env (s.signInPoll clock) := by
  have hstore : ∀ {s'}, s'.vault = s.vault → s'.memory = s.memory → s'.chain = s.chain →
      s'.log = s.log → s.signOuts ≤ s'.signOuts → Store env s' := h.store.congr
  unfold State.signInPoll
  split
  · exact h
  · dsimp only
    split
    · exact h
    · split
      · exact ⟨hstore rfl rfl rfl rfl le_rfl, h.epochs.setPending (by simp)⟩
      · exact h
      · refine ⟨hstore rfl rfl rfl rfl le_rfl, ?_⟩
        apply Epochs.spawn
        · exact h.epochs.setFlow (Or.inl rfl)
        · simp
        · simp

theorem step_sound {a : Action} (h : Sound env s) (hok : Orderly s a)
    (hs : step env s a = some s') : Sound env s' := by
  cases a with
  | status refresh =>
    rw [← Option.some.inj hs]
    refine ⟨(h.store.serial .settled).congr rfl rfl rfl rfl le_rfl, ?_⟩
    exact (h.epochs.serial (by simp) (by simp)).spawn (by simp) (by simp)
  | signInStart =>
    rw [← Option.some.inj hs]
    refine ⟨h.store.congr rfl rfl rfl rfl le_rfl, h.epochs.spawn ?_ (by simp)⟩
    intro called hpc
    exact (Pc.starting.inj hpc).symm
  | signInPoll clock => exact Option.some.inj hs ▸ h.signInPoll clock
  | signInCancel =>
    rw [← Option.some.inj hs]
    exact ⟨h.store.congr rfl rfl rfl rfl le_rfl, h.epochs.bump.setPending (by simp)⟩
  | signOut =>
    rw [← Option.some.inj hs]
    have hout : Sound env
        { s with pending := none, epoch := s.epoch + 1, signOuts := s.signOuts + 1 } :=
      ⟨h.store.congr rfl rfl rfl rfl (Nat.le_succ _), h.epochs.signOut hok⟩
    refine hout.serial (by simp) ?_
    intro k hk
    exact (JobKind.clear.inj hk).ge
  | read => exact Option.some.inj hs ▸ h.settled
  | resume t a =>
    obtain ⟨pc, hpc, hs⟩ := Option.bind_eq_some_iff.mp hs
    exact h.resume hpc hs
  | work w =>
    obtain ⟨j, hj, rfl⟩ := Option.map_eq_some_iff.mp hs
    exact ⟨h.store.work h.epochs hj hok,
      (follows_work env (List.mem_of_mem_head? hj) w).epochs h.epochs⟩
  | crash =>
    rw [← Option.some.inj hs]
    refine ⟨h.store.crash hok, ?_⟩
    constructor <;> simp [State.crash, State.start]

end Step

/-- In every orderly run, whatever `load` answers was saved as that pair, and once a sign-out has
resolved it answers null until a sign-in that was started after it is stored. -/
theorem signOut_wins (env : Env) {actions : List Action} {s : State}
    (hrun : Transition.run (step env) State.start actions = some s)
    (hok : Transition.Along (step env) Orderly State.start actions) :
    ∀ before x after, s.log = before ++ .loaded x :: after →
      Event.saved x ∈ before ∧ ∀ k, Event.signedOut k ∈ before →
        ∃ called, Event.completed called ∈ before ∧ k ≤ called := by
  have h : Sound env s := Transition.run_invariant_along (fun s a t h hok hs => step_sound h hok hs)
    (start_sound env) hrun hok
  exact fun before x after heq => h.store.justified before (.loaded x) after heq

def sampleEnv : Env := ⟨true, fun _ => true⟩

/-- A sign-in whose tasks have the numbers from `t` on, up to its queued save. -/
def signsIn (t : ℕ) (token profile : String) : List Action :=
  [.signInStart, .resume t .ok, .signInPoll .due, .resume (t + 1) (.token token),
    .resume (t + 1) (.profile profile)]

def saved : List Action := [.work .ok, .work .ok, .work .ok]

/-- A sign-in, a sign-out while its token is read, and another sign-in. -/
def signedInAgain : List Action :=
  signsIn 0 "a" "pa" ++ saved ++ ([.read, .signOut, .work .ok, .work .ok] : List Action) ++
    signsIn 2 "b" "pb" ++ saved ++ ([.read, .work .ok] : List Action)

theorem signOut_wins_again :
    ∃ s, Transition.run (step sampleEnv) State.start signedInAgain = some s ∧
      s.log = [.saved ⟨"a", "pa"⟩, .completed 0, .loaded ⟨"a", "pa"⟩, .signedOut 1,
        .saved ⟨"b", "pb"⟩, .completed 1, .loaded ⟨"b", "pb"⟩] ∧
      ∃ called, Event.completed called ∈ s.log ∧ 1 ≤ called := by
  have hrun : ∃ s, Transition.run (step sampleEnv) State.start signedInAgain = some s ∧
      s.log = [.saved ⟨"a", "pa"⟩, .completed 0, .loaded ⟨"a", "pa"⟩, .signedOut 1,
        .saved ⟨"b", "pb"⟩, .completed 1, .loaded ⟨"b", "pb"⟩] := by decide +kernel
  obtain ⟨s, hs, hlog⟩ := hrun
  have hwins := signOut_wins sampleEnv hs (by decide +kernel)
    [.saved ⟨"a", "pa"⟩, .completed 0, .loaded ⟨"a", "pa"⟩, .signedOut 1, .saved ⟨"b", "pb"⟩,
      .completed 1] ⟨"b", "pb"⟩ [] hlog
  obtain ⟨called, hmem, hle⟩ := hwins.2 1 (by simp)
  exact ⟨s, hs, hlog, called, by rw [hlog]; exact List.mem_append_left _ hmem, hle⟩

/-- Signed in with one token, and the vault fails to write the token of the next sign-in. -/
def tokenUnwritten : List Action :=
  signsIn 0 "a" "pa" ++ saved ++ signsIn 2 "b" "pb" ++
    ([.work .ok, .work .ok, .work .failed, .read, .work .ok] : List Action)

/-- The sign-out comes while GitHub is asked for a device code. -/
def startedBefore : List Action :=
  ([.signInStart, .signOut, .work .ok, .resume 0 .ok, .signInPoll .due, .resume 1 (.token "a"),
      .resume 1 (.profile "pa")] : List Action) ++ saved ++ ([.read, .work .ok] : List Action)

/-- The old token is read with the new profile; and a sign-in that was started before the sign-out
signs in after it. -/
theorem signOut_loses :
    (∃ s, Transition.run (step sampleEnv) State.start tokenUnwritten = some s ∧
        Event.loaded ⟨"a", "pb"⟩ ∈ s.log ∧ Event.saved ⟨"a", "pb"⟩ ∉ s.log) ∧
      ∃ s, Transition.run (step sampleEnv) State.start startedBefore = some s ∧
        s.log = [.signedOut 1, .saved ⟨"a", "pa"⟩, .completed 0, .loaded ⟨"a", "pa"⟩] := by
  constructor <;> decide +kernel

end ClaudeFleet.Identity
