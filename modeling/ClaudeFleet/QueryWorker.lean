import ClaudeFleet.SlotGate
import ClaudeFleet.Transition

/-! The queries that run in worker threads: how many run at a time, the calls that wait for a slot
up to their deadline, and the threads that go on after theirs has passed. -/
namespace ClaudeFleet.QueryWorker
open Transition

def MAX_CONCURRENT_QUERIES : ℕ := 2

def MAX_ZOMBIE_QUERIES : ℕ := 2

/-- How the wait of a call for a slot has ended. -/
inductive WaitEnd
  | woken
  | timedOut
  deriving DecidableEq

/-- The counts of the module, the calls by their number in each stage (`answering` and `timedOut`
are those with a live thread, `settled` those whose slot is yet to be given back), and the ends of
the waits there have been. -/
structure Workers where
  gate : SlotGate ℕ := {}
  zombies : ℕ := 0
  calls : ℕ := 0
  answering : List ℕ := []
  timedOut : List ℕ := []
  settled : List ℕ := []
  waits : List (ℕ × WaitEnd) := []

inductive Action
  /-- A call is made; `starts` tells whether a thread can be made for it, should it get its slot. -/
  | call (starts : Bool)
  /-- A call that was woken continues. -/
  | continue_ (c : ℕ) (starts : Bool)
  /-- The deadline of a call passes while it waits for a slot. -/
  | giveUp (c : ℕ)
  /-- A thread answers, or fails. -/
  | settle (c : ℕ)
  /-- The deadline of a call passes while its thread runs. -/
  | timeout (c : ℕ)
  /-- A thread exits. -/
  | exit (c : ℕ)
  /-- A call that has its answer or error continues and gives its slot back. -/
  | release (c : ℕ)

/-- A call with a slot starts its thread, or fails at once. -/
def start (s : Workers) (c : ℕ) (starts : Bool) : Workers :=
  if starts then { s with answering := s.answering ++ [c] }
  else { s with settled := s.settled ++ [c] }

def runQueryInWorker (s : Workers) (starts : Bool) : Workers :=
  let c := s.calls
  let s := { s with calls := s.calls + 1 }
  if MAX_ZOMBIE_QUERIES ≤ s.zombies then s
  else
    let entered := { s with gate := s.gate.enter MAX_CONCURRENT_QUERIES c }
    if MAX_CONCURRENT_QUERIES ≤ s.gate.running then entered else start entered c starts

def settle (s : Workers) (c : ℕ) : Workers :=
  { s with answering := s.answering.erase c, settled := s.settled ++ [c] }

def timeout (s : Workers) (c : ℕ) : Workers :=
  { settle s c with zombies := s.zombies + 1, timedOut := s.timedOut ++ [c] }

def exit (s : Workers) (c : ℕ) : Workers :=
  if c ∈ s.timedOut then { s with zombies := s.zombies - 1, timedOut := s.timedOut.erase c }
  else if c ∈ s.answering then settle s c
  else s

def release (s : Workers) (c : ℕ) : Workers :=
  { s with
    settled := s.settled.erase c, gate := s.gate.leave
    waits := s.waits ++ s.gate.waiters.head?.toList.map fun w => (w, .woken) }

def step (s : Workers) : Action → Option Workers
  | .call starts => some (runQueryInWorker s starts)
  | .continue_ c starts =>
    if c ∈ s.gate.woken then some (start { s with gate := s.gate.resume c } c starts) else none
  | .giveUp c =>
    if c ∈ s.gate.waiters then
      some { s with gate := s.gate.quit c, waits := s.waits ++ [(c, .timedOut)] }
    else none
  | .settle c => if c ∈ s.answering then some (settle s c) else none
  | .timeout c => if c ∈ s.answering then some (timeout s c) else none
  | .exit c => some (exit s c)
  | .release c => if c ∈ s.settled then some (release s c) else none

/-- The threads that are alive: those that answer, and those timed out that have not exited. -/
def live (s : Workers) : ℕ := s.answering.length + s.timedOut.length

/-- A call that takes a slot at once leaves those on their way to others, and one that was woken
starts its thread while there is room for one more. -/
def Patient (s : Workers) : Action → Prop
  | .call _ => s.zombies < MAX_ZOMBIE_QUERIES → s.gate.Spare MAX_CONCURRENT_QUERIES
  | .continue_ _ starts =>
    starts = true → live s < MAX_CONCURRENT_QUERIES + MAX_ZOMBIE_QUERIES
  | .giveUp _ | .settle _ | .timeout _ | .exit _ | .release _ => True

/-- What holds in every run: the counts are those of the calls, nobody waits without need, and a
wait ends once. -/
structure Counted (s : Workers) : Prop where
  running : s.gate.running = s.answering.length + s.settled.length
  zombies : s.zombies = s.timedOut.length
  fed : s.gate.Fed MAX_CONCURRENT_QUERIES
  waiting : (s.waits.map Prod.fst ++ s.gate.waiters).Nodup
  known : ∀ c ∈ s.waits.map Prod.fst ++ s.gate.waiters, c < s.calls

/-- What the condition adds. -/
structure Bounded (s : Workers) : Prop where
  slots : s.gate.Within MAX_CONCURRENT_QUERIES
  threads : live s ≤ MAX_CONCURRENT_QUERIES + MAX_ZOMBIE_QUERIES

variable {s s' : Workers} {c : ℕ} {starts : Bool}

theorem counted_init : Counted {} where
  running := rfl
  zombies := rfl
  fed h := absurd rfl h
  waiting := List.nodup_nil
  known _ h := absurd h List.not_mem_nil

theorem bounded_init : Bounded {} where
  slots := Nat.zero_le _
  threads := Nat.zero_le _

/-- A slot that has been taken becomes a thread's, or is given back soon. -/
theorem Counted.start {gate : SlotGate ℕ} {calls : ℕ} (h : Counted s)
    (hrun : gate.running = s.gate.running + 1) (hfed : gate.Fed MAX_CONCURRENT_QUERIES)
    (hw : gate.waiters = s.gate.waiters) (hcalls : s.calls ≤ calls) (c : ℕ) (starts : Bool) :
    Counted (start { s with gate, calls } c starts) := by
  have hcount := h.running
  have hwaiting : (s.waits.map Prod.fst ++ gate.waiters).Nodup := hw ▸ h.waiting
  have hknown : ∀ w ∈ s.waits.map Prod.fst ++ gate.waiters, w < calls := by
    intro w hmem
    exact (h.known w (hw ▸ hmem)).trans_le hcalls
  unfold QueryWorker.start
  split_ifs
  · refine ⟨?_, h.zombies, hfed, hwaiting, hknown⟩
    simp only [List.length_append, List.length_singleton]
    omega
  · refine ⟨?_, h.zombies, hfed, hwaiting, hknown⟩
    simp only [List.length_append, List.length_singleton]
    omega

theorem Counted.call (h : Counted s) (starts : Bool) : Counted (runQueryInWorker s starts) := by
  unfold runQueryInWorker
  dsimp only
  split_ifs with hrefused hfull
  · exact ⟨h.running, h.zombies, h.fed, h.waiting, 
      fun c hc => (h.known c hc).trans (Nat.lt_succ_self _)⟩
  · have henter : s.gate.enter MAX_CONCURRENT_QUERIES s.calls =
        { s.gate with waiters := s.gate.waiters ++ [s.calls] } := if_pos hfull
    have hlist : s.waits.map Prod.fst ++ (s.gate.waiters ++ [s.calls]) =
        s.waits.map Prod.fst ++ s.gate.waiters ++ [s.calls] := (List.append_assoc _ _ _).symm
    have hfed := h.fed.enter (c := s.calls)
    rw [henter] at hfed ⊢
    refine ⟨h.running, h.zombies, hfed, ?_, ?_⟩
    · dsimp only
      rw [hlist]
      refine List.nodup_append'.mpr ⟨h.waiting, List.nodup_singleton _, ?_⟩
      rw [List.disjoint_singleton]
      exact fun hmem => absurd (h.known _ hmem) (lt_irrefl _)
    · intro w hw
      dsimp only at hw
      rw [hlist] at hw
      rcases List.mem_append.mp hw with hw | hw
      · exact (h.known w hw).trans (Nat.lt_succ_self _)
      · exact List.mem_singleton.mp hw ▸ Nat.lt_succ_self _
  · have henter : s.gate.enter MAX_CONCURRENT_QUERIES s.calls =
        { s.gate with running := s.gate.running + 1 } := if_neg hfull
    have hfed := h.fed.enter (c := s.calls)
    rw [henter] at hfed ⊢
    exact h.start rfl hfed rfl (Nat.le_succ _) _ _

theorem Counted.giveUp (h : Counted s) (hc : c ∈ s.gate.waiters) :
    Counted { s with gate := s.gate.quit c, waits := s.waits ++ [(c, .timedOut)] } := by
  have hperm : (s.waits.map Prod.fst ++ [c] ++ s.gate.waiters.erase c).Perm
      (s.waits.map Prod.fst ++ s.gate.waiters) := by
    rw [List.append_assoc]
    exact (List.perm_cons_erase hc).symm.append_left _
  refine ⟨h.running, h.zombies, h.fed.quit, ?_, ?_⟩
  · simpa [SlotGate.quit] using hperm.nodup_iff.mpr h.waiting
  · intro w hw
    exact h.known w (hperm.mem_iff.mp (by simpa [SlotGate.quit] using hw))

theorem Counted.settle (h : Counted s) (hc : c ∈ s.answering) : Counted (settle s c) := by
  have hlen := List.length_erase_add_one hc
  have hcount := h.running
  refine ⟨?_, h.zombies, h.fed, h.waiting, h.known⟩
  simp only [QueryWorker.settle, List.length_append, List.length_singleton]
  omega

theorem Counted.timeout (h : Counted s) (hc : c ∈ s.answering) : Counted (timeout s c) := by
  have hsettled := h.settle hc
  refine ⟨hsettled.running, ?_, h.fed, h.waiting, h.known⟩
  simp only [QueryWorker.timeout, List.length_append, List.length_singleton, h.zombies]

theorem Counted.exit (h : Counted s) (c : ℕ) : Counted (exit s c) := by
  unfold QueryWorker.exit
  split_ifs with hout hin
  · have hlen := List.length_erase_add_one hout
    have hcount := h.zombies
    refine ⟨h.running, ?_, h.fed, h.waiting, h.known⟩
    dsimp only
    omega
  · exact h.settle hin
  · exact h

theorem Counted.release (h : Counted s) (hc : c ∈ s.settled) : Counted (release s c) := by
  have hlen := List.length_erase_add_one hc
  have hcount := h.running
  -- the first who waits is woken
  have hlist : (s.waits ++ s.gate.waiters.head?.toList.map fun w => (w, WaitEnd.woken)).map
      Prod.fst ++ s.gate.leave.waiters = s.waits.map Prod.fst ++ s.gate.waiters := by
    unfold SlotGate.leave
    cases hw : s.gate.waiters with
    | nil => simp
    | cons w waiters => simp
  refine ⟨?_, h.zombies, h.fed.leave, ?_, ?_⟩
  · simp only [QueryWorker.release, SlotGate.running_leave]
    omega
  · simp only [QueryWorker.release, hlist]
    exact h.waiting
  · simp only [QueryWorker.release, hlist]
    exact h.known

theorem step_counted {a : Action} (h : Counted s) (hs : step s a = some s') : Counted s' := by
  cases a with
  | call starts => exact Option.some.inj hs ▸ h.call starts
  | continue_ c starts =>
    obtain ⟨hc, rfl⟩ := Option.ite_none_right_eq_some.mp hs |>.imp_right Option.some.inj
    exact h.start rfl (h.fed.resume hc) rfl le_rfl c starts
  | giveUp c =>
    obtain ⟨hc, rfl⟩ := Option.ite_none_right_eq_some.mp hs |>.imp_right Option.some.inj
    exact h.giveUp hc
  | settle c =>
    obtain ⟨hc, rfl⟩ := Option.ite_none_right_eq_some.mp hs |>.imp_right Option.some.inj
    exact h.settle hc
  | timeout c =>
    obtain ⟨hc, rfl⟩ := Option.ite_none_right_eq_some.mp hs |>.imp_right Option.some.inj
    exact h.timeout hc
  | exit c => exact Option.some.inj hs ▸ h.exit c
  | release c =>
    obtain ⟨hc, rfl⟩ := Option.ite_none_right_eq_some.mp hs |>.imp_right Option.some.inj
    exact h.release hc

theorem live_start (s : Workers) (c : ℕ) (starts : Bool) :
    live (start s c starts) = if starts then live s + 1 else live s := by
  unfold start live
  split_ifs
  · simp only [List.length_append, List.length_singleton]
    omega
  · rfl

theorem live_settle (hc : c ∈ s.answering) : live (settle s c) + 1 = live s := by
  have hlen := List.length_erase_add_one hc
  unfold settle live
  dsimp only
  omega

theorem gate_start (s : Workers) (c : ℕ) (starts : Bool) : (start s c starts).gate = s.gate := by
  unfold start
  split_ifs <;> rfl

theorem Bounded.call (hcount : Counted s) (h : Bounded s) (hok : Patient s (.call starts)) :
    Bounded (runQueryInWorker s starts) := by
  unfold runQueryInWorker
  dsimp only
  split_ifs with hrefused hfull
  · exact ⟨h.slots, h.threads⟩
  · exact ⟨h.slots.enter (hok (not_le.mp hrefused)), h.threads⟩
  · refine ⟨?_, ?_⟩
    · rw [gate_start]
      exact h.slots.enter (hok (not_le.mp hrefused))
    · -- a slot is free and there are fewer zombies than their limit
      have hz := hcount.zombies
      have hrun := hcount.running
      rw [live_start]
      show (if starts = true then live s + 1 else live s) ≤ _
      have hlive : live s = s.answering.length + s.timedOut.length := rfl
      split_ifs <;> omega

theorem step_bounded {a : Action} (h : Counted s ∧ Bounded s) (hok : Patient s a)
    (hs : step s a = some s') : Counted s' ∧ Bounded s' := by
  refine ⟨step_counted h.1 hs, ?_⟩
  obtain ⟨hcount, hslots, hthreads⟩ := h
  cases a with
  | call starts => exact Option.some.inj hs ▸ Bounded.call hcount ⟨hslots, hthreads⟩ hok
  | continue_ c starts =>
    obtain ⟨hc, rfl⟩ := Option.ite_none_right_eq_some.mp hs |>.imp_right Option.some.inj
    refine ⟨?_, ?_⟩
    · rw [gate_start]
      exact hslots.resume hc
    · rw [live_start]
      split_ifs with hstarts
      · exact hok hstarts
      · exact hthreads
  | giveUp c =>
    obtain ⟨hc, rfl⟩ := Option.ite_none_right_eq_some.mp hs |>.imp_right Option.some.inj
    exact ⟨hslots.quit, hthreads⟩
  | settle c =>
    obtain ⟨hc, rfl⟩ := Option.ite_none_right_eq_some.mp hs |>.imp_right Option.some.inj
    have hlive := live_settle hc
    exact ⟨hslots, by omega⟩
  | timeout c =>
    obtain ⟨hc, rfl⟩ := Option.ite_none_right_eq_some.mp hs |>.imp_right Option.some.inj
    have hlive := live_settle hc
    refine ⟨hslots, ?_⟩
    have hmoved : live (timeout s c) = live (settle s c) + 1 := by
      show (settle s c).answering.length + (s.timedOut ++ [c]).length =
        (settle s c).answering.length + s.timedOut.length + 1
      simp only [List.length_append, List.length_singleton]
      omega
    omega
  | exit c =>
    obtain rfl := Option.some.inj hs
    unfold exit
    split_ifs with hout hin
    · refine ⟨hslots, ?_⟩
      have hlen := List.length_erase_add_one hout
      unfold live at hthreads ⊢
      dsimp only
      omega
    · have hlive := live_settle hin
      exact ⟨hslots, by omega⟩
    · exact ⟨hslots, hthreads⟩
  | release c =>
    obtain ⟨hc, rfl⟩ := Option.ite_none_right_eq_some.mp hs |>.imp_right Option.some.inj
    have hpos := List.length_pos_of_mem hc
    have hrun := hcount.running
    exact ⟨hslots.leave (by omega), hthreads⟩

/-- In every order of calls, answers, failures, exits, deadlines and continuations, while calls are
patient: the slots and the live threads stay within their numbers, the zombies are the threads
timed out that have not exited, a wait ends at most once, and nobody waits while a slot is free and
nobody is on the way to one. -/
theorem workers_bounded (as : List Action) (s : Workers) (hr : run step {} as = some s)
    (hok : Along step Patient {} as) :
    s.gate.running ≤ MAX_CONCURRENT_QUERIES ∧
    live s ≤ MAX_CONCURRENT_QUERIES + MAX_ZOMBIE_QUERIES ∧
    s.zombies = s.timedOut.length ∧
    (s.waits.map Prod.fst).Nodup ∧
    (s.gate.waiters ≠ [] → s.gate.woken = [] → MAX_CONCURRENT_QUERIES ≤ s.gate.running) := by
  have h : Counted s ∧ Bounded s :=
    run_invariant_along (fun _ _ _ h hp hs => step_bounded h hp hs)
      ⟨counted_init, bounded_init⟩ hr hok
  obtain ⟨hcount, hslots, hthreads⟩ := h
  refine ⟨(Nat.le_add_right _ _).trans hslots, hthreads, hcount.zombies,
    hcount.waiting.of_append_left, ?_⟩
  intro hw hnone
  have := hcount.fed hw
  simpa [hnone] using this

instance (s : Workers) (a : Action) : Decidable (Patient s a) := by
  cases a <;> simp only [Patient] <;> infer_instance

/-- Three calls, of which the third waits; one answers and wakes it, and one is timed out. -/
def orderly : List Action :=
  [.call true, .call true, .call true, .settle 0, .release 0, .continue_ 2 true, .timeout 1,
    .release 1, .exit 1, .settle 2]

theorem orderly_bounded : ∃ s, run step {} orderly = some s ∧
    live s ≤ MAX_CONCURRENT_QUERIES + MAX_ZOMBIE_QUERIES := by
  have hsome : (run step {} orderly).isSome = true := by decide +kernel
  obtain ⟨s, hs⟩ := Option.isSome_iff_exists.mp hsome
  exact ⟨s, hs, (workers_bounded orderly s hs (by decide +kernel)).2.1⟩

/-- A call comes between the slot that is given back and the one who was woken for it. -/
def overtaken : List Action :=
  [.call true, .call true, .call true, .settle 0, .release 0, .call true, .continue_ 2 true]

theorem overtaken_exceeds : ∃ s, run step {} overtaken = some s ∧
    MAX_CONCURRENT_QUERIES < s.gate.running :=
  ⟨_, rfl, by decide⟩

end ClaudeFleet.QueryWorker
