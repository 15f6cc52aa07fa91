import ClaudeFleet.SerializingDriver

/-! Writes are granted the lock one at a time and in the order of their requests, ask the hook
before anything else, give the lock back exactly once, and commit nothing between the end of a
drain and the reopening of the gate. -/
namespace ClaudeFleet.SerializingDriver
open Transition

def Event.requester : Event → Option ℕ
  | .requested t => some t
  | _ => none

def Event.grantee : Event → Option ℕ
  | .granted t => some t
  | _ => none

/-- A `drain()` started on a closed gate that was not reopened since. -/
def Standing (log : List Event) (d : ℕ) : Prop :=
  ∃ before after, log = before ++ .draining d :: after ∧ .opened ∉ after

/-- A drain started after `close()` has resolved, and the gate was not reopened since. -/
def Quiet (log : List Event) : Prop := ∃ d, Standing log d ∧ .drained d ∈ log

/-- The request holds the lock as far as the log tells. -/
def Inside (log : List Event) (t : ℕ) : Prop := .granted t ∈ log ∧ .released t ∉ log

/-- What may happen after `log`. -/
def Allowed (log : List Event) : Event → Prop
  | .requested t => log.filterMap Event.requester = List.range t
  | .granted t => log.filterMap Event.grantee = List.range t ∧ ∀ j < t, .released j ∈ log
  | .released t => Inside log t
  | .begun t => Inside log t
  | .hooked t _ => Inside log t ∧ .begun t ∈ log ∧ .ran t ∉ log ∧ ∀ ok, .hooked t ok ∉ log
  | .ran t => Inside log t ∧ .hooked t true ∈ log ∧ .hooked t false ∉ log
  | .committed t =>
    Inside log t ∧ .hooked t true ∈ log ∧ .hooked t false ∉ log ∧ ¬Quiet log
  | _ => True

namespace Pc

/-- The caller's promise is settled, but for the rollback after a failed commit. -/
def finished : Pc → Bool
  | .commitFailed | .done => true
  | _ => false

/-- Between `conn.unlock = await this.lock()` and `end(conn)`. -/
def inTx : Pc → Bool
  | .txConnect | .txStart | .txHook | .txUndo | .running => true
  | _ => false

def atHook : Pc → Bool
  | .hook | .txHook => true
  | _ => false

def unhooked : Pc → Bool
  | .waiting | .connect | .start | .hook | .txConnect | .txStart | .txHook => true
  | _ => false

def passed : Pc → Bool
  | .query | .commit | .running => true
  | _ => false

/-- Awaits left until the lock is given back. -/
def rank : Pc → ℕ
  | .waiting => 8
  | .connect => 7
  | .start => 6
  | .hook => 5
  | .query => 4
  | .commit => 3
  | .rollback => 2
  | .last => 1
  | .txConnect => 4
  | .txStart => 3
  | .txHook => 2
  | .txUndo => 1
  | .running => 1
  | .commitFailed => 0
  | .done => 0

end Pc

attribute [simp] Pc.finished Pc.inTx Pc.atHook Pc.unhooked Pc.passed

/-- Where a request stands agrees with what the log says of it. -/
structure Fits (log : List Event) (resolved : Bool) (t : ℕ) (op : Op) : Prop where
  granted : .granted t ∈ log ↔ op.pc ≠ .waiting
  released : log.count (.released t) = if op.pc.finished then 1 else 0
  resolved : resolved = op.pc.finished
  unlock : op.unlock = op.pc.inTx
  begun : op.pc.atHook = true → .begun t ∈ log
  fresh : op.pc.unhooked = true → .ran t ∉ log ∧ ∀ ok, .hooked t ok ∉ log
  passed : op.pc.passed = true → .hooked t true ∈ log ∧ .hooked t false ∉ log

structure Orderly (s : State) : Prop where
  fits : ∀ t, Fits s.log (s.resolved t) t (s.ops t)
  unborn : ∀ t, s.tickets ≤ t → (s.ops t).pc = .waiting
  requests : s.log.filterMap Event.requester = List.range s.tickets
  grants : ∃ n, s.log.filterMap Event.grantee = List.range n ∧
    ∀ t, (s.ops t).pc ≠ .waiting ↔ t < n
  earlier : ∀ t, (s.ops t).pc ≠ .waiting → ∀ j < t, s.resolved j = true
  drained : ∀ d, .drained d ∈ s.log → (s.ops d).pc = .done
  standing : ∀ d, Standing s.log d → s.refusal ≠ none ∧ d < s.tickets ∧
    ∀ t, d ≤ t → .hooked t true ∉ s.log
  justified : Justified Allowed s.log

theorem initial_orderly : Orderly {} where
  fits t := by constructor <;> simp
  unborn _ _ := rfl
  requests := rfl
  grants := ⟨0, rfl, by simp⟩
  earlier t h := absurd rfl h
  drained d h := by cases h
  standing d h := by
    obtain ⟨before, after, heq, -⟩ := h
    simp at heq
  justified := .nil _

/-- Events of a request under way. -/
def Event.Own (t : ℕ) : Event → Prop
  | .released u | .begun u | .hooked u _ | .ran u | .committed u => u = t
  | _ => False

/-- The request under way an event is about. -/
def Event.ticket : Event → Option ℕ
  | .granted t | .released t | .begun t | .hooked t _ | .ran t | .committed t => some t
  | _ => none

theorem Event.Own.ticket {t : ℕ} {e : Event} (h : e.Own t) : e.ticket = some t := by
  cases e <;> first | exact h.elim | exact congrArg some h

theorem Fits.other {log es : List Event} {resolved : Bool} {u : ℕ} {op op' : Op}
    (h : Fits log resolved u op) (hes : ∀ e ∈ es, e.ticket ≠ some u) (hpc : op'.pc = op.pc)
    (hunlock : op'.unlock = op.unlock) : Fits (log ++ es) resolved u op' := by
  have hnot : ∀ e : Event, e.ticket = some u → e ∉ es := fun e he hmem => hes e hmem he
  refine ⟨?_, ?_, hpc ▸ h.resolved, hunlock.trans (hpc ▸ h.unlock), ?_, ?_, ?_⟩ <;> rw [hpc]
  · rw [List.mem_append, or_iff_left (hnot _ rfl)]
    exact h.granted
  · rw [List.count_append, List.count_eq_zero_of_not_mem (hnot (.released u) rfl), Nat.add_zero]
    exact h.released
  · intro hat
    exact List.mem_append_left _ (h.begun hat)
  · intro hun
    obtain ⟨hran, hhook⟩ := h.fresh hun
    simp only [List.mem_append, not_or]
    exact ⟨⟨hran, hnot _ rfl⟩, fun ok => ⟨hhook ok, hnot _ rfl⟩⟩
  · intro hp
    obtain ⟨hpass, hno⟩ := h.passed hp
    simp only [List.mem_append, not_or]
    exact ⟨.inl hpass, hno, hnot _ rfl⟩

/-- The next stand of a request agrees with the log and the events that lead there. -/
theorem Fits.next {log es : List Event} {resolved resolved' : Bool} {t : ℕ} {op op' : Op}
    (h : Fits log resolved t op) (hpc : op.pc ≠ .waiting) (hpc' : op'.pc ≠ .waiting)
    (hfin : op.pc.finished = true → op'.pc.finished = true)
    (hrel : es.count (.released t) =
      if op'.pc.finished = true ∧ op.pc.finished = false then 1 else 0)
    (hresolved : resolved' = op'.pc.finished) (hunlock : op'.unlock = op'.pc.inTx)
    (hbegun : op'.pc.atHook = true → .begun t ∈ es)
    (hfresh : op'.pc.unhooked = true →
      op.pc.unhooked = true ∧ .ran t ∉ es ∧ ∀ ok, .hooked t ok ∉ es)
    (hpassed : op'.pc.passed = true → .hooked t false ∉ es ∧
      (op.pc.passed = true ∨ op.pc.unhooked = true ∧ .hooked t true ∈ es)) :
    Fits (log ++ es) resolved' t op' := by
  refine ⟨?_, ?_, hresolved, hunlock, ?_, ?_, ?_⟩
  · have hin : .granted t ∈ log ++ es := List.mem_append_left _ (h.granted.mpr hpc)
    exact iff_of_true hin hpc'
  · rw [List.count_append, h.released, hrel]
    cases hf : op.pc.finished with
    | true =>
      rw [hfin hf]
      rfl
    | false => cases op'.pc.finished <;> simp
  · intro ha
    exact List.mem_append_right _ (hbegun ha)
  · intro hu
    obtain ⟨hold, hran, hhook⟩ := hfresh hu
    obtain ⟨hran', hhook'⟩ := h.fresh hold
    simp only [List.mem_append, not_or]
    exact ⟨⟨hran', hran⟩, fun ok => ⟨hhook' ok, hhook ok⟩⟩
  · intro hp
    obtain ⟨hno, hold | ⟨hold, hyes⟩⟩ := hpassed hp
    · obtain ⟨hyes', hno'⟩ := h.passed hold
      simp only [List.mem_append, not_or]
      exact ⟨.inl hyes', hno', hno⟩
    · simp only [List.mem_append, not_or]
      exact ⟨.inr hyes, (h.fresh hold).2 false, hno⟩

theorem Standing.snoc {log : List Event} {e : Event} {d : ℕ} (h : Standing (log ++ [e]) d) :
    e = .draining d ∨ e ≠ .opened ∧ Standing log d := by
  obtain ⟨before, after, heq, hopen⟩ := h
  cases after using List.reverseRecOn with
  | nil =>
    obtain ⟨-, hlast⟩ := List.append_inj' heq rfl
    exact .inl (List.singleton_inj.mp hlast)
  | append_singleton after last =>
    rw [← List.cons_append, ← List.append_assoc] at heq
    obtain ⟨hlog, hlast⟩ := List.append_inj' heq rfl
    obtain rfl := List.singleton_inj.mp hlast
    rw [List.mem_append, List.mem_singleton, not_or] at hopen
    exact .inr ⟨fun he => hopen.2 he.symm, before, after, hlog, hopen.1⟩

theorem Standing.of_append {log es : List Event} {d : ℕ} (h : Standing (log ++ es) d)
    (hes : .draining d ∉ es) : Standing log d := by
  induction es using List.reverseRecOn with
  | nil => rwa [List.append_nil] at h
  | append_singleton es e ih =>
    rw [List.mem_append, List.mem_singleton, not_or] at hes
    rw [← List.append_assoc] at h
    rcases h.snoc with heq | ⟨-, h⟩
    · exact absurd heq.symm hes.2
    · exact ih h hes.1

theorem filterMap_own {f : Event → Option ℕ} {es : List Event} {t : ℕ}
    (hf : f = Event.requester ∨ f = Event.grantee) (hes : ∀ e ∈ es, e.Own t) :
    es.filterMap f = [] := by
  rw [List.filterMap_eq_nil_iff]
  intro e he
  have hown := hes e he
  rcases hf with rfl | rfl <;> cases e <;> first | rfl | exact hown.elim

/-- A request under way goes on. -/
theorem Orderly.moves {s s' : State} (h : Orderly s) (t : ℕ) (es : List Event)
    (hops : ∀ u, u ≠ t → s'.ops u = s.ops u) (hres : ∀ u, u ≠ t → s'.resolved u = s.resolved u)
    (htickets : s'.tickets = s.tickets) (hrefusal : s'.refusal = s.refusal)
    (hlog : s'.log = s.log ++ es) (hown : ∀ e ∈ es, e.Own t) (hpc : (s.ops t).pc ≠ .waiting)
    (hpc' : (s'.ops t).pc ≠ .waiting) (hfin : (s.ops t).pc.finished = true →
      (s'.ops t).pc.finished = true) (hdone : (s.ops t).pc ≠ .done)
    (hhook : .hooked t true ∈ es → s.refusal = none)
    (hfits : Fits s'.log (s'.resolved t) t (s'.ops t)) (hjust : Justified Allowed s'.log) :
    Orderly s' where
  fits u := by
    by_cases hu : u = t
    · exact hu ▸ hfits
    · rw [hops u hu, hres u hu, hlog]
      refine (h.fits u).other (fun e he heq => ?_) rfl rfl
      rw [(hown e he).ticket] at heq
      exact hu (Option.some.inj heq).symm
  unborn u hu := by
    have hold := h.unborn u (htickets ▸ hu)
    rw [hops u (by rintro rfl; exact hpc hold)]
    exact hold
  requests := by
    rw [hlog, List.filterMap_append, filterMap_own (.inl rfl) hown, List.append_nil, htickets]
    exact h.requests
  grants := by
    obtain ⟨n, hn, hlt⟩ := h.grants
    refine ⟨n, ?_, fun u => ?_⟩
    · rw [hlog, List.filterMap_append, filterMap_own (.inr rfl) hown, List.append_nil]
      exact hn
    · by_cases hu : u = t
      · rw [hu]
        exact iff_of_true hpc' ((hlt t).mp hpc)
      · rw [hops u hu]
        exact hlt u
  earlier u hu j hj := by
    have hold : (s.ops u).pc ≠ .waiting := by
      by_cases hut : u = t
      · exact hut ▸ hpc
      · rwa [hops u hut] at hu
    have hresolved := h.earlier u hold j hj
    by_cases hjt : j = t
    · subst hjt
      rw [hfits.resolved]
      exact hfin ((h.fits j).resolved ▸ hresolved)
    · rw [hres j hjt]
      exact hresolved
  drained d hd := by
    have hold : (s.ops d).pc = .done := by
      rw [hlog] at hd
      rcases List.mem_append.mp hd with hd | hd
      · exact h.drained d hd
      · exact (hown _ hd).elim
    rw [hops d (by rintro rfl; exact hdone hold)]
    exact hold
  standing d hd := by
    rw [hlog] at hd
    obtain ⟨hclosed, hlt, hno⟩ := h.standing d (hd.of_append fun he => hown _ he)
    rw [hrefusal, htickets, hlog]
    refine ⟨hclosed, hlt, fun u hu hin => ?_⟩
    rcases List.mem_append.mp hin with hin | hin
    · exact hno u hu hin
    · obtain rfl : u = t := hown _ hin
      exact hclosed (hhook hin)
  justified := hjust

theorem Orderly.inside {s : State} (h : Orderly s) {t : ℕ} (hpc : (s.ops t).pc ≠ .waiting)
    (hfin : (s.ops t).pc.finished = false) : Inside s.log t := by
  refine ⟨(h.fits t).granted.mpr hpc, ?_⟩
  rw [← List.count_eq_zero, (h.fits t).released, hfin, if_neg Bool.false_ne_true]

/-- A write that passed the gate holds the lock, so a drain that started later is still waiting. -/
theorem Orderly.not_quiet {s : State} (h : Orderly s) {t : ℕ}
    (hpassed : (s.ops t).pc.passed = true) : ¬Quiet s.log := by
  rintro ⟨d, hstanding, hdrained⟩
  have hyes := ((h.fits t).passed hpassed).1
  have hlt : t < d := by
    by_contra hle
    exact (h.standing d hstanding).2.2 t (not_lt.mp hle) hyes
  have hdone := h.drained d hdrained
  have hresolved := h.earlier d (by rw [hdone]; nofun) t hlt
  rw [(h.fits t).resolved] at hresolved
  revert hpassed hresolved
  cases (s.ops t).pc <;> simp

/-- What a request under way shows next. -/
inductive Shows (s : State) (t : ℕ) : List Event → Prop
  | nothing : Shows s t []
  | begun : Shows s t [.begun t]
  | hooked {passed : Bool} (hpc : (s.ops t).pc.atHook = true)
      (hopen : passed = true → s.refusal = none) : Shows s t [.hooked t passed]
  | ran (hpc : (s.ops t).pc.passed = true) : Shows s t [.ran t]
  | committed (hpc : (s.ops t).pc.passed = true) : Shows s t [.committed t]

theorem Shows.own {s : State} {t : ℕ} {es : List Event} (h : Shows s t es) :
    ∀ e ∈ es, e.Own t := by
  intro e he
  cases h <;> simp only [List.mem_singleton, List.not_mem_nil] at he <;> subst he <;> rfl

theorem Shows.refusal {s : State} {t : ℕ} {es : List Event} (h : Shows s t es)
    (hin : .hooked t true ∈ es) : s.refusal = none := by
  cases h with
  | hooked hpc hopen =>
    simp only [List.mem_singleton, Event.hooked.injEq, true_and] at hin
    exact hopen hin.symm
  | nothing => cases hin
  | begun | ran | committed => simp at hin

theorem Shows.released {s : State} {t : ℕ} {es : List Event} (h : Shows s t es) :
    .released t ∉ es := by
  cases h <;> simp

theorem Shows.justified {s : State} {t : ℕ} {es : List Event} (h : Shows s t es)
    (ho : Orderly s) (hpc : (s.ops t).pc ≠ .waiting) (hfin : (s.ops t).pc.finished = false) :
    Justified Allowed (s.log ++ es) := by
  have hin := ho.inside hpc hfin
  have hfits := ho.fits t
  cases h with
  | nothing =>
    rw [List.append_nil]
    exact ho.justified
  | begun => exact ho.justified.snoc hin
  | hooked hpc' hopen =>
    have hun : (s.ops t).pc.unhooked = true := by
      revert hpc'
      cases (s.ops t).pc <;> simp
    exact ho.justified.snoc ⟨hin, hfits.begun hpc', hfits.fresh hun⟩
  | ran hpc' => exact ho.justified.snoc ⟨hin, hfits.passed hpc'⟩
  | committed hpc' =>
    obtain ⟨hyes, hno⟩ := hfits.passed hpc'
    exact ho.justified.snoc ⟨hin, hyes, hno, ho.not_quiet hpc'⟩

/-- The code goes from `p` to `q` without ending, and shows `es`. -/
structure Follows (t : ℕ) (p : Pc) (es : List Event) (q : Pc) : Prop where
  from_waiting : p ≠ .waiting
  from_finished : p.finished = false
  to_waiting : q ≠ .waiting
  to_finished : q.finished = false
  inTx : q.inTx = p.inTx
  begun : q.atHook = true → .begun t ∈ es
  fresh : q.unhooked = true → p.unhooked = true ∧ .ran t ∉ es ∧ ∀ ok, .hooked t ok ∉ es
  passed : q.passed = true → .hooked t false ∉ es ∧
    (p.passed = true ∨ p.unhooked = true ∧ .hooked t true ∈ es)

/-- The request goes on and keeps the lock. -/
theorem Orderly.goes {s : State} {t : ℕ} {op : Op} {es : List Event} (h : Orderly s)
    (hf : Follows t (s.ops t).pc es op.pc) (hshows : Shows s t es)
    (hun : op.unlock = (s.ops t).unlock) : Orderly (s.goes t op es) := by
  obtain ⟨hpc, hfin, hpc', hfin', hinTx, hbegun, hfresh, hpassed⟩ := hf
  have hunlock : op.unlock = op.pc.inTx := by rw [hun, (h.fits t).unlock, hinTx]
  have hself : (s.goes t op es).ops t = op := by simp [State.goes]
  have hresolved : s.resolved t = op.pc.finished := by
    rw [(h.fits t).resolved, hfin, hfin']
  refine h.moves t es ?_ (fun _ _ => rfl) rfl rfl rfl hshows.own hpc
    (by rwa [hself]) (fun hf => ?_) ?_ hshows.refusal ?_ (hshows.justified h hpc hfin)
  · intro u hu
    simp [State.goes, hu]
  · rw [hfin] at hf
    cases hf
  · intro hdone
    rw [hdone] at hfin
    cases hfin
  · rw [hself]
    refine (h.fits t).next hpc hpc' (fun hf => ?_) ?_ hresolved hunlock hbegun hfresh hpassed
    · rw [hfin] at hf
      cases hf
    · rw [List.count_eq_zero_of_not_mem hshows.released, hfin']
      simp

/-- The request ends and gives the lock back. -/
theorem Orderly.ends {s : State} {t : ℕ} {op : Op} {es : List Event} (h : Orderly s)
    (hshows : Shows s t es) (hpc : (s.ops t).pc ≠ .waiting)
    (hfin : (s.ops t).pc.finished = false) (hfin' : op.pc.finished = true)
    (hunlock : op.unlock = false) : Orderly ((s.goes t op es).release t) := by
  have hself : ((s.goes t op es).release t).ops t = op := by simp [State.goes, State.release]
  have hclass : op.pc ≠ .waiting ∧ op.pc.inTx = false ∧ op.pc.atHook = false ∧
      op.pc.unhooked = false ∧ op.pc.passed = false := by
    revert hfin'
    cases op.pc <;> simp
  obtain ⟨hpc', hinTx, hatHook, hunhooked, hpassed⟩ := hclass
  have hlog : ((s.goes t op es).release t).log = s.log ++ (es ++ [.released t]) := by
    simp [State.goes, State.release]
  have hin := h.inside hpc hfin
  refine h.moves t (es ++ [.released t]) ?_ ?_ rfl rfl hlog ?_ hpc (by rwa [hself])
    (fun _ => by rwa [hself]) ?_ ?_ ?_ ?_
  · intro u hu
    simp [State.goes, State.release, hu]
  · intro u hu
    simp [State.goes, State.release, hu]
  · intro e he
    rcases List.mem_append.mp he with he | he
    · exact hshows.own e he
    · rw [List.mem_singleton.mp he]
      rfl
  · intro hdone
    rw [hdone] at hfin
    cases hfin
  · intro hhook
    refine hshows.refusal ?_
    simpa using hhook
  · rw [hself, hlog]
    refine (h.fits t).next hpc hpc' (fun _ => hfin') ?_ ?_ (hunlock.trans hinTx.symm) ?_ ?_ ?_
    · rw [List.count_append, List.count_eq_zero_of_not_mem hshows.released, hfin', hfin]
      simp
    · rw [hfin']
      simp [State.goes, State.release]
    · rw [hatHook]
      nofun
    · rw [hunhooked]
      nofun
    · rw [hpassed]
      nofun
  · rw [hlog, ← List.append_assoc]
    refine (hshows.justified h hpc hfin).snoc ⟨List.mem_append_left _ hin.1, ?_⟩
    rw [List.mem_append, not_or]
    exact ⟨hin.2, hshows.released⟩

theorem State.tail_iff (s : State) (t : ℕ) : s.tail t = true ↔ ∀ j < t, s.resolved j = true := by
  induction t with
  | zero => simp [State.tail]
  | succ t ih =>
    rw [State.tail, Bool.and_eq_true, ih]
    constructor
    · rintro ⟨hlt, ht⟩ j hj
      rcases Nat.lt_succ_iff_lt_or_eq.mp hj with hj | rfl
      · exact hlt j hj
      · exact ht
    · intro hall
      exact ⟨fun j hj => hall j (Nat.lt_succ_of_lt hj), hall t (Nat.lt_succ_self t)⟩

theorem Orderly.released_mem {s : State} (h : Orderly s) {t : ℕ} (ht : s.resolved t = true) :
    .released t ∈ s.log := by
  rw [← List.count_pos_iff, (h.fits t).released, ← (h.fits t).resolved, ht]
  exact Nat.one_pos

/-- The lock is granted. -/
theorem Orderly.grant {s : State} {t : ℕ} {op : Op} (h : Orderly s)
    (hpc : (s.ops t).pc = .waiting) (hlt : t < s.tickets) (htail : s.tail t = true)
    (hop : op.pc = .connect ∧ op.unlock = false ∨ op.pc = .txConnect ∧ op.unlock = true) :
    Orderly (s.goes t op [.granted t]) := by
  rw [State.tail_iff] at htail
  have hself : (s.goes t op [.granted t]).ops t = op := by simp [State.goes]
  have hother : ∀ u, u ≠ t → (s.goes t op [.granted t]).ops u = s.ops u := by
    intro u hu
    simp [State.goes, hu]
  have hpc' : op.pc ≠ .waiting := by
    rcases hop with ⟨hop, -⟩ | ⟨hop, -⟩ <;> rw [hop] <;> nofun
  have hfits := h.fits t
  obtain ⟨n, hn, hgranted⟩ := h.grants
  -- nobody was passed over
  have htn : t = n := by
    have hge : ¬t < n := fun hlt => (hgranted t).mpr hlt hpc
    have hle : ¬n < t := by
      intro hnt
      have hfin := htail n hnt
      rw [(h.fits n).resolved] at hfin
      refine absurd ((hgranted n).mp fun hw => ?_) (lt_irrefl n)
      rw [hw] at hfin
      cases hfin
    omega
  constructor
  · intro u
    by_cases hu : u = t
    · subst hu
      have hfresh := hfits.fresh (by rw [hpc]; rfl)
      have hnot : s.log.count (.released u) = 0 := by
        rw [hfits.released, hpc]
        rfl
      have hresolved : s.resolved u = false := by
        rw [hfits.resolved, hpc]
        rfl
      rw [hself]
      rcases hop with ⟨hop, hun⟩ | ⟨hop, hun⟩ <;>
        constructor <;>
        simp [State.goes, hop, hun, hnot, hresolved, hfresh]
    · rw [hother u hu]
      refine (h.fits u).other (fun e he heq => ?_) rfl rfl
      rw [List.mem_singleton.mp he] at heq
      exact hu (Option.some.inj heq).symm
  · intro u hu
    rw [hother u (by rintro rfl; exact absurd hlt (not_lt.mpr hu))]
    exact h.unborn u hu
  · rw [State.goes, List.filterMap_append, h.requests]
    exact List.append_nil _
  · refine ⟨n + 1, ?_, fun u => ?_⟩
    · rw [State.goes, List.filterMap_append, hn, List.range_succ, ← htn]
      rfl
    · by_cases hu : u = t
      · rw [hu, hself]
        exact iff_of_true hpc' (by omega)
      · rw [hother u hu, hgranted u]
        omega
  · intro u hu j hj
    by_cases hut : u = t
    · exact htail j (hut ▸ hj)
    · rw [hother u hut] at hu
      exact h.earlier u hu j hj
  · intro d hd
    have hold : (s.ops d).pc = .done := h.drained d (by simpa [State.goes] using hd)
    rw [hother d (by rintro rfl; rw [hpc] at hold; cases hold)]
    exact hold
  · intro d hd
    obtain ⟨hclosed, hlt, hno⟩ := h.standing d (hd.of_append (by simp))
    refine ⟨hclosed, hlt, fun u hu => ?_⟩
    simpa [State.goes] using hno u hu
  · refine h.justified.snoc ⟨hn.trans (by rw [htn]), fun j hj => h.released_mem (htail j hj)⟩

/-- Nothing happens to a request under way. -/
theorem Orderly.notes {s s' : State} {e : Event} (h : Orderly s) (hlog : s'.log = s.log ++ [e])
    (he : e = .closed ∨ e = .opened ∨ ∃ d, e = .drained d ∧ (s.ops d).pc = .done)
    (hops : s'.ops = s.ops) (hres : s'.resolved = s.resolved) (htickets : s'.tickets = s.tickets)
    (hrefusal : e ≠ .opened → s.refusal ≠ none → s'.refusal ≠ none) : Orderly s' := by
  have hticket : e.ticket = none ∧ e.requester = none ∧ e.grantee = none := by
    rcases he with rfl | rfl | ⟨d, rfl, -⟩ <;> exact ⟨rfl, rfl, rfl⟩
  constructor
  · intro u
    rw [hlog, hops, hres]
    refine (h.fits u).other (fun e' he' heq => ?_) rfl rfl
    rw [List.mem_singleton.mp he', hticket.1] at heq
    cases heq
  · rw [hops, htickets]
    exact h.unborn
  · rw [hlog, htickets, List.filterMap_append, h.requests]
    simp [hticket.2.1]
  · obtain ⟨n, hn, hgranted⟩ := h.grants
    refine ⟨n, ?_, hops ▸ hgranted⟩
    rw [hlog, List.filterMap_append, hn]
    simp [hticket.2.2]
  · rw [hops, hres]
    exact h.earlier
  · intro d hd
    rw [hlog] at hd
    rw [hops]
    rcases List.mem_append.mp hd with hd | hd
    · exact h.drained d hd
    · rcases he with rfl | rfl | ⟨d', rfl, hdone⟩
      · simp at hd
      · simp at hd
      · obtain rfl : d = d' := by simpa using hd
        exact hdone
  · intro d hd
    rw [hlog] at hd
    rcases hd.snoc with heq | ⟨hne, hd⟩
    · rcases he with rfl | rfl | ⟨d', rfl, -⟩ <;> cases heq
    · obtain ⟨hclosed, hlt, hno⟩ := h.standing d hd
      refine ⟨hrefusal hne hclosed, htickets ▸ hlt, fun u hu hin => hno u hu ?_⟩
      rw [hlog] at hin
      rcases List.mem_append.mp hin with hin | hin
      · exact hin
      · rcases he with rfl | rfl | ⟨d', rfl, -⟩ <;> simp at hin
  · rw [hlog]
    refine h.justified.snoc ?_
    rcases he with rfl | rfl | ⟨d, rfl, -⟩ <;> trivial

/-- A new request; `es` may hold the start of a drain before it. -/
theorem Orderly.request {s : State} {kind : Kind} {es : List Event} (h : Orderly s)
    (hes : es = [] ∨ es = [.draining s.tickets] ∧ s.refusal ≠ none) :
    Orderly (s.request kind (es ++ [.requested s.tickets])) := by
  have hticket : ∀ e ∈ es ++ [.requested s.tickets],
      e.ticket = none ∧ e.grantee = none ∧ ∀ d, e ≠ .drained d := by
    intro e he
    rcases hes with rfl | ⟨rfl, -⟩ <;> simp at he
    · rw [he]
      exact ⟨rfl, rfl, nofun⟩
    · rcases he with rfl | rfl <;> exact ⟨rfl, rfl, nofun⟩
  have hfresh : (s.ops s.tickets).pc = .waiting := h.unborn _ le_rfl
  have hpc : ∀ u, ((s.request kind (es ++ [.requested s.tickets])).ops u).pc = (s.ops u).pc := by
    intro u
    simp only [State.request, Function.update_apply]
    split_ifs with hu
    · rw [hu, hfresh]
    · rfl
  have hlog : (s.request kind (es ++ [.requested s.tickets])).log =
      s.log ++ (es ++ [.requested s.tickets]) := rfl
  have hnothook : ∀ t, s.tickets ≤ t → .hooked t true ∉ s.log := by
    intro t ht
    exact ((h.fits t).fresh (by rw [h.unborn t ht]; rfl)).2 true
  have hnew : ∀ t, .hooked t true ∈ s.log ++ (es ++ [.requested s.tickets]) →
      .hooked t true ∈ s.log := by
    intro t hin
    rcases List.mem_append.mp hin with hin | hin
    · exact hin
    · have := (hticket _ hin).1
      cases this
  constructor
  · intro u
    rw [hlog]
    refine (h.fits u).other (fun e he heq => ?_) (hpc u) ?_
    · rw [(hticket e he).1] at heq
      cases heq
    · simp only [State.request, Function.update_apply]
      split_ifs with hu
      · rw [(h.fits u).unlock, hu, hfresh]
        rfl
      · rfl
  · intro u hu
    rw [hpc]
    exact h.unborn u (Nat.le_of_succ_le hu)
  · rw [hlog, List.filterMap_append, h.requests]
    have hone : (es ++ [Event.requested s.tickets]).filterMap Event.requester = [s.tickets] := by
      rcases hes with rfl | ⟨rfl, -⟩ <;> rfl
    rw [hone]
    exact List.range_succ.symm
  · obtain ⟨n, hn, hgranted⟩ := h.grants
    refine ⟨n, ?_, fun u => by rw [hpc]; exact hgranted u⟩
    rw [hlog, List.filterMap_append, hn]
    have hnone : (es ++ [Event.requested s.tickets]).filterMap Event.grantee = [] :=
      List.filterMap_eq_nil_iff.mpr fun e he => (hticket e he).2.1
    rw [hnone, List.append_nil]
  · intro u hu
    rw [hpc] at hu
    exact h.earlier u hu
  · intro d hd
    rw [hpc]
    rw [hlog] at hd
    rcases List.mem_append.mp hd with hd | hd
    · exact h.drained d hd
    · exact absurd rfl ((hticket _ hd).2.2 d)
  · intro d hd
    rw [hlog] at hd ⊢
    by_cases hdr : .draining d ∈ es
    · rcases hes with rfl | ⟨rfl, hclosed⟩
      · cases hdr
      · obtain rfl : d = s.tickets := by simpa using hdr
        exact ⟨hclosed, Nat.lt_succ_self _, fun t ht hin => hnothook t ht (hnew t hin)⟩
    · obtain ⟨hclosed, hlt, hno⟩ := h.standing d (hd.of_append (by simpa using hdr))
      exact ⟨hclosed, Nat.lt_succ_of_lt hlt, fun t ht hin => hno t ht (hnew t hin)⟩
  · rw [hlog]
    rcases hes with rfl | ⟨rfl, -⟩
    · exact h.justified.snoc h.requests
    · have hfirst : Justified Allowed (s.log ++ [.draining s.tickets]) :=
        h.justified.snoc trivial
      rw [← List.append_assoc]
      refine hfirst.snoc ?_
      rw [Allowed, List.filterMap_append, h.requests]
      exact List.append_nil _

theorem Op.commits_shows {s : State} {t : ℕ} (hpc : (s.ops t).pc.passed = true) (o : Outcome) :
    Shows s t ((s.ops t).commits t o) := by
  unfold Op.commits
  split_ifs
  · exact .committed hpc
  · exact .nothing

/-- `end(conn)` of a transaction that still has its `unlock`. -/
theorem Orderly.endTx {s : State} {t : ℕ} {op : Op} {es : List Event} (h : Orderly s)
    (hshows : Shows s t es) (hin : (s.ops t).pc.inTx = true) (hun : op.unlock = (s.ops t).unlock)
    (hfin' : op.pc.finished = true) : Orderly (s.endTx t op es) := by
  have hheld : op.unlock = true := by rw [hun, (h.fits t).unlock, hin]
  have hclass : (s.ops t).pc ≠ .waiting ∧ (s.ops t).pc.finished = false := by
    revert hin
    cases (s.ops t).pc <;> simp
  unfold State.endTx
  simp only [hheld, if_true]
  exact h.ends hshows hclass.1 hclass.2 hfin' rfl

theorem resume_orderly {s s' : State} {t : ℕ} {o : Outcome} (h : Orderly s)
    (hs : s.resume t o = some s') : Orderly s' := by
  unfold State.resume at hs
  simp only at hs
  split at hs
  · next hpc =>
    have hunlock : (s.ops t).unlock = false := by rw [(h.fits t).unlock, hpc]; rfl
    split_ifs at hs with hready hkind <;> obtain rfl := Option.some.inj hs
    · exact h.grant hpc hready.1 hready.2 (.inr ⟨rfl, rfl⟩)
    · exact h.grant hpc hready.1 hready.2 (.inl ⟨rfl, hunlock⟩)
  · next hpc =>
    obtain rfl := Option.some.inj hs
    refine h.goes ?_ .nothing rfl
    rw [hpc]
    split_ifs <;> constructor <;> simp
  · next hpc =>
    split_ifs at hs <;> obtain rfl := Option.some.inj hs
    · refine h.goes ?_ .begun rfl
      rw [hpc]
      constructor <;> simp
    · refine h.goes ?_ .nothing rfl
      rw [hpc]
      constructor <;> simp
  · next hpc =>
    split_ifs at hs with hopen <;> obtain rfl := Option.some.inj hs
    · refine h.goes ?_ (.hooked (by rw [hpc]; rfl) fun _ => hopen.1) rfl
      rw [hpc]
      constructor <;> simp
    · refine h.goes ?_ (.hooked (by rw [hpc]; rfl) nofun) rfl
      rw [hpc]
      constructor <;> simp
  · next hpc =>
    split_ifs at hs <;> obtain rfl := Option.some.inj hs
    · refine h.goes ?_ (.ran (by rw [hpc]; rfl)) rfl
      rw [hpc]
      constructor <;> simp
    · refine h.goes ?_ .nothing rfl
      rw [hpc]
      constructor <;> simp
  · next hpc =>
    obtain rfl := Option.some.inj hs
    refine h.goes ?_ (Op.commits_shows (by rw [hpc]; rfl) o) rfl
    rw [hpc]
    split_ifs <;> constructor <;> simp
  · next hpc =>
    obtain rfl := Option.some.inj hs
    refine h.goes ?_ .nothing rfl
    rw [hpc]
    constructor <;> simp
  · next hpc =>
    obtain rfl := Option.some.inj hs
    refine h.ends .nothing (by rw [hpc]; nofun) (by rw [hpc]; rfl) rfl ?_
    rw [(h.fits t).unlock, hpc]
    rfl
  · next hpc =>
    split_ifs at hs <;> obtain rfl := Option.some.inj hs
    · refine h.goes ?_ .nothing rfl
      rw [hpc]
      constructor <;> simp
    · exact h.endTx .nothing (by rw [hpc]; rfl) rfl rfl
  · next hpc =>
    split_ifs at hs <;> obtain rfl := Option.some.inj hs
    · refine h.goes ?_ .begun rfl
      rw [hpc]
      constructor <;> simp
    · exact h.endTx .nothing (by rw [hpc]; rfl) rfl rfl
  · next hpc =>
    split_ifs at hs with hopen <;> obtain rfl := Option.some.inj hs
    · refine h.goes ?_ (.hooked (by rw [hpc]; rfl) fun _ => hopen.1) rfl
      rw [hpc]
      constructor <;> simp
    · refine h.goes ?_ (.hooked (by rw [hpc]; rfl) nofun) rfl
      rw [hpc]
      constructor <;> simp
  · next hpc =>
    obtain rfl := Option.some.inj hs
    exact h.endTx .nothing (by rw [hpc]; rfl) rfl rfl
  all_goals cases hs

/-- The rollback after a failed commit finds no `unlock` to call. -/
theorem Orderly.rolledBack {s : State} {t : ℕ} (h : Orderly s)
    (hpc : (s.ops t).pc = .commitFailed) :
    Orderly (s.endTx t { s.ops t with pc := .done, tx := .over } []) := by
  have hun : (s.ops t).unlock = false := by rw [(h.fits t).unlock, hpc]; rfl
  unfold State.endTx
  simp only [hun, if_neg Bool.false_ne_true]
  have hself : ∀ op, (s.goes t op []).ops t = op := fun op => by simp [State.goes]
  refine h.moves t [] ?_ (fun _ _ => rfl) rfl rfl rfl nofun (by rw [hpc]; nofun)
    (by rw [hself]; nofun) (fun _ => by rw [hself]; rfl) (by rw [hpc]; nofun) nofun ?_ ?_
  · intro u hu
    simp [State.goes, hu]
  · rw [hself]
    refine (h.fits t).next (by rw [hpc]; nofun) nofun (fun _ => rfl) ?_ ?_ rfl nofun nofun nofun
    · rw [hpc]
      rfl
    · rw [State.goes, (h.fits t).resolved, hpc]
      rfl
  · rw [State.goes, List.append_nil]
    exact h.justified

theorem step_orderly {s s' : State} {a : Action} (h : Orderly s) (hs : step s a = some s') :
    Orderly s' := by
  cases a with
  | request transaction =>
    obtain rfl := Option.some.inj hs
    exact h.request (.inl rfl)
  | drain =>
    simp only [step] at hs
    split_ifs at hs with hopen
    obtain rfl := Option.some.inj hs
    exact h.request (.inr ⟨rfl, hopen⟩)
  | resume t o => exact resume_orderly h hs
  | statement t o =>
    simp only [step] at hs
    split_ifs at hs with hpc <;> obtain rfl := Option.some.inj hs
    · refine h.goes ?_ (.ran (by rw [hpc]; rfl)) rfl
      rw [hpc]
      constructor <;> simp
    · refine h.goes ?_ .nothing rfl
      rw [hpc]
      constructor <;> simp
  | commit t o =>
    simp only [step] at hs
    split_ifs at hs with hpc <;> obtain rfl := Option.some.inj hs
    · exact h.endTx (Op.commits_shows (by rw [hpc]; rfl) o) (by rw [hpc]; rfl) rfl rfl
    · exact h.endTx (Op.commits_shows (by rw [hpc]; rfl) o) (by rw [hpc]; rfl) rfl rfl
  | rollback t o =>
    simp only [step] at hs
    split_ifs at hs with hpc
    obtain rfl := Option.some.inj hs
    rcases hpc with hpc | hpc
    · exact h.endTx .nothing (by rw [hpc]; rfl) rfl rfl
    · exact h.rolledBack hpc
  | resolve t =>
    simp only [step] at hs
    split_ifs at hs with hdone
    obtain rfl := Option.some.inj hs
    exact h.notes rfl (.inr (.inr ⟨t, rfl, hdone.2⟩)) rfl rfl rfl fun _ hr => hr
  | close reason =>
    obtain rfl := Option.some.inj hs
    exact h.notes rfl (.inl rfl) rfl rfl rfl fun _ _ => Option.some_ne_none _
  | reopen =>
    obtain rfl := Option.some.inj hs
    exact h.notes rfl (.inr (.inl rfl)) rfl rfl rfl fun hne => absurd rfl hne

/-- A request that was granted the lock and has not given it back. -/
def State.Holds (s : State) (t : ℕ) : Prop := .granted t ∈ s.log ∧ s.resolved t = false

/-- The request is left to itself: its awaits settle as `os` says, and a transaction that runs is
rolled back. -/
def finish (s : State) (t : ℕ) : List Outcome → State
  | [] => s
  | o :: os =>
    match step s (if (s.ops t).pc = .running then .rollback t o else .resume t o) with
    | none => s
    | some s' => finish s' t os

theorem Orderly.holds_iff {s : State} (h : Orderly s) (t : ℕ) :
    s.Holds t ↔ (s.ops t).pc ≠ .waiting ∧ (s.ops t).pc.finished = false := by
  rw [State.Holds, (h.fits t).granted, (h.fits t).resolved]

theorem State.endTx_ops (s : State) (t : ℕ) (op : Op) (es : List Event) :
    ((s.endTx t op es).ops t).pc = op.pc := by
  unfold State.endTx
  split_ifs <;> simp [State.goes, State.release]

/-- Whatever its await brings, a request that holds the lock has fewer awaits left. -/
theorem Orderly.settles {s : State} {t : ℕ} (h : Orderly s) (ht : s.Holds t) (o : Outcome) :
    ∃ s', step s (if (s.ops t).pc = .running then .rollback t o else .resume t o) = some s' ∧
      (s'.ops t).pc.rank < (s.ops t).pc.rank := by
  obtain ⟨hpc, hfin⟩ := (h.holds_iff t).mp ht
  have hgoes : ∀ op es, ((s.goes t op es).ops t).pc = op.pc := fun op es => by simp [State.goes]
  have hrelease : ∀ s' : State, (s'.release t).ops t = s'.ops t := fun _ => rfl
  cases hat : (s.ops t).pc
  case waiting => exact absurd hat hpc
  case commitFailed | done =>
    rw [hat] at hfin
    cases hfin
  case connect | commit | rollback | last | txUndo | running =>
    simp only [step, State.resume, hat, reduceCtorEq, if_true, if_false, true_or]
    refine ⟨_, rfl, ?_⟩
    simp only [hrelease, hgoes, State.endTx_ops]
    first | (split_ifs <;> decide) | decide
  case start | hook | query | txConnect | txStart | txHook =>
    simp only [step, State.resume, hat, reduceCtorEq, if_false]
    split_ifs <;> refine ⟨_, rfl, ?_⟩ <;> simp only [hgoes, State.endTx_ops] <;> decide

theorem Orderly.finish {s : State} {t : ℕ} (h : Orderly s) (os : List Outcome)
    (hlen : (s.ops t).pc.rank ≤ os.length) (hpc : (s.ops t).pc ≠ .waiting) :
    Orderly (finish s t os) ∧ ((finish s t os).ops t).pc.finished = true := by
  induction os generalizing s with
  | nil =>
    refine ⟨h, ?_⟩
    rw [List.length_nil, Nat.le_zero] at hlen
    revert hlen hpc
    simp only [SerializingDriver.finish]
    cases (s.ops t).pc <;> simp [Pc.rank]
  | cons o os ih =>
    cases hfin : (s.ops t).pc.finished with
    | true =>
      have hstop : step s (if (s.ops t).pc = .running then .rollback t o else .resume t o) =
          none := by
        cases hat : (s.ops t).pc <;> rw [hat] at hfin <;> cases hfin <;>
          simp [step, State.resume, hat]
      simp only [SerializingDriver.finish, hstop]
      exact ⟨h, hfin⟩
    | false =>
      obtain ⟨s', hs, hlt⟩ := h.settles ((h.holds_iff t).mpr ⟨hpc, hfin⟩) o
      have hne : (s'.ops t).pc ≠ .waiting := by
        intro hw
        rw [hw] at hlt
        revert hlt
        cases (s.ops t).pc <;> decide
      simp only [SerializingDriver.finish, hs]
      rw [List.length_cons] at hlen
      exact ih (step_orderly h hs) (by omega) hne

/-- The write path, over every run. Each entry of the log is allowed by what came before it: the
lock is granted in the order of the requests and only when every earlier holder has given it back,
a write begins its transaction and asks the hook before it runs anything, and a COMMIT follows a
hook that passed, inside the lock, and never in the quiet between the end of a drain and the
reopening of the gate. At most one request holds the lock. One that has finished gave it back
exactly once, one that holds it does so however its awaits settle, and the next in line is then
granted it. -/
theorem writes_in_turn (as : List Action) (s : State) (hrun : run step {} as = some s) :
    Justified Allowed s.log ∧ (∀ t u, s.Holds t → s.Holds u → t = u) ∧
    (∀ t, s.log.count (.released t) = if (s.ops t).pc.finished then 1 else 0) ∧
    (∀ t, s.Holds t → ∀ os : List Outcome, 7 ≤ os.length →
      (finish s t os).log.count (.released t) = 1) ∧
    (∀ t < s.tickets, (s.ops t).pc = .waiting → (∀ j < t, (s.ops j).pc.finished = true) →
      ∀ o, ∃ s', step s (.resume t o) = some s' ∧ s'.Holds t) := by
  have h : Orderly s :=
    run_invariant (fun _ _ _ h hs => step_orderly h hs) initial_orderly hrun
  have hbefore : ∀ t u, s.Holds t → s.Holds u → ¬t < u := by
    intro t u ht hu hlt
    have hresolved := h.earlier u ((h.holds_iff u).mp hu).1 t hlt
    rw [ht.2] at hresolved
    cases hresolved
  refine ⟨h.justified, ?_, fun t => (h.fits t).released, ?_, ?_⟩
  · intro t u ht hu
    have htu := hbefore t u ht hu
    have hut := hbefore u t hu ht
    omega
  · intro t ht os hlen
    obtain ⟨hpc, hfin⟩ := (h.holds_iff t).mp ht
    have hrank : (s.ops t).pc.rank ≤ 7 := by
      revert hpc
      cases (s.ops t).pc <;> simp [Pc.rank]
    obtain ⟨hend, hdone⟩ := h.finish os (hrank.trans hlen) hpc
    rw [(hend.fits t).released, hdone, if_pos rfl]
  · intro t ht hpc hall o
    have htail : s.tail t = true := by
      rw [State.tail_iff]
      intro j hj
      rw [(h.fits j).resolved]
      exact hall j hj
    have hresolved : s.resolved t = false := by
      rw [(h.fits t).resolved, hpc]
      rfl
    simp only [step, State.resume, hpc, ht, htail, true_and, if_true]
    split_ifs <;> refine ⟨_, rfl, ?_, hresolved⟩ <;> simp [State.goes]

/-- A transaction and a bare write, a gate that closes in between, a drain, and a write that comes
after it. -/
def closedInBetween : List Action :=
  [.request true, .request false, .resume 0 .ok, .resume 0 .ok, .resume 0 .ok, .resume 0 .ok,
    .statement 0 .ok, .close "moving", .drain, .request false, .commit 0 .lost, .rollback 0 .ok,
    .resume 1 .ok, .resume 1 .ok, .resume 1 .ok, .resume 1 .ok, .resume 1 .failed, .resume 1 .ok,
    .resume 2 .ok, .resume 2 .failed, .resume 2 .ok, .resolve 2, .resume 3 .ok, .resume 3 .ok,
    .resume 3 .ok, .resume 3 .ok, .resume 3 .ok, .resume 3 .ok, .reopen]

theorem writes_in_turn_closed :
    (run step {} closedInBetween).map State.log =
      some [.requested 0, .requested 1, .granted 0, .begun 0, .hooked 0 true, .ran 0, .closed,
        .draining 2, .requested 2, .requested 3, .committed 0, .released 0, .granted 1, .begun 1,
        .hooked 1 false, .released 1, .granted 2, .released 2, .drained 2, .granted 3, .begun 3,
        .hooked 3 false, .released 3, .opened] ∧
    ∀ s, run step {} closedInBetween = some s →
      Justified Allowed s.log ∧ (∀ t u, s.Holds t → s.Holds u → t = u) ∧
      (∀ t, s.log.count (.released t) = if (s.ops t).pc.finished then 1 else 0) ∧
      (∀ t, s.Holds t → ∀ os : List Outcome, 7 ≤ os.length →
        (finish s t os).log.count (.released t) = 1) ∧
      (∀ t < s.tickets, (s.ops t).pc = .waiting → (∀ j < t, (s.ops j).pc.finished = true) →
        ∀ o, ∃ s', step s (.resume t o) = some s' ∧ s'.Holds t) :=
  ⟨by decide +kernel, fun s hrun => writes_in_turn closedInBetween s hrun⟩

end ClaudeFleet.SerializingDriver
