import ClaudeFleet.Lease

/-! Mutual exclusion of the lease. Every local deadline, held or about to be adopted from
an executed store call, is covered: either the row names this manager at least until the
deadline, or the store clock has already passed it. -/
namespace ClaudeFleet.Lease

variable {ι : Type} (o : ι → LeaseOptions)

/-- The row protects manager `i` up to local time `d`, or `d` is over. -/
def Covered (s : System ι) (i : ι) (d : ℤ) : Prop :=
  (s.row.holder = some (o i).holder ∧ d ≤ s.row.expiresAt + (o i).offset) ∨ d ≤ mono o s i

/-- The deadline a grant or renewal captured at `t` gives. -/
def deadlineFrom (i : ι) (t : ℤ) : ℤ := t + (o i).ttlMs - (o i).renewMs

def AwaitOk (s : System ι) (i : ι) (m : LeaseManager) : Awaiting → Prop
  | .tryAcquire c t => t ≤ mono o s i ∧ m.state = .standby ∧
      ∃ reply, s.calls c = some ⟨i, .tryAcquire, reply⟩ ∧
        (m.stopped = false → ∀ e, reply = some (.epoch (some e)) →
          Covered o s i (deadlineFrom o i t))
  | .renew c t => t ≤ mono o s i ∧
      ∃ e reply, s.calls c = some ⟨i, .renew e, reply⟩ ∧
        (m.stopped = false → reply = some (.renewed true) → Covered o s i (deadlineFrom o i t))
  | .release _ => True

/-- What a manager record must satisfy in the system `s`. -/
structure ManagerOk (s : System ι) (i : ι) (m : LeaseManager) : Prop where
  covered : m.state = .holder → Covered o s i m.deadline
  deadline_le : m.state = .holder → m.deadline ≤ deadlineFrom o i (mono o s i)
  await : ∀ a, m.ticking = some a → AwaitOk o s i m a
  released : ∀ c e, s.calls c = some ⟨i, .release e, none⟩ →
    m.stopped = true ∧ m.state = .standby
  stopping : 0 < m.stopping → m.stopped = true

structure Inv (s : System ι) : Prop where
  manager : ∀ i, ManagerOk o s i (s.managers i)
  fresh : ∀ c, s.nextCall ≤ c → s.calls c = none

theorem initial_inv (row : LeaseRow) (time : ℤ) : Inv o (initial (ι := ι) row time) where
  manager i := by constructor <;> simp [initial]
  fresh := by simp [initial]

section Frame

variable {o}

/-- Giving up a deadline, a pending step or the timers keeps a manager sound, as long as
it does not come out of its stopped state. -/
theorem ManagerOk.drop {s : System ι} {i : ι} {m k : LeaseManager} (hm : ManagerOk o s i m)
    (hst : k.state = .holder → m.state = .holder ∧ k.deadline = m.deadline)
    (hby : m.state = .standby → k.state = .standby)
    (htick : ∀ a, k.ticking = some a → m.ticking = some a)
    (hstop : m.stopped = true → k.stopped = true)
    (hwait : 0 < k.stopping → k.stopped = true) : ManagerOk o s i k where
  covered hk := by
    rw [(hst hk).2]
    exact hm.covered (hst hk).1
  deadline_le hk := by
    rw [(hst hk).2]
    exact hm.deadline_le (hst hk).1
  await a ha := by
    have hrun : k.stopped = false → m.stopped = false := by
      intro hk
      cases hms : m.stopped
      · rfl
      · simp [hstop hms] at hk
    have hold := hm.await a (htick a ha)
    cases a with
    | tryAcquire c t =>
      obtain ⟨ht, hs, reply, hc, hcov⟩ := hold
      exact ⟨ht, hby hs, reply, hc, fun hk => hcov (hrun hk)⟩
    | renew c t =>
      obtain ⟨ht, e, reply, hc, hcov⟩ := hold
      exact ⟨ht, e, reply, hc, fun hk => hcov (hrun hk)⟩
    | release c => trivial
  released c e hc := by
    obtain ⟨hs, hb⟩ := hm.released c e hc
    exact ⟨hstop hs, hby hb⟩
  stopping := hwait

theorem ManagerOk.lose {s : System ι} {i : ι} {m : LeaseManager} (hm : ManagerOk o s i m)
    (reason : LostReason) : ManagerOk o s i (m.lose reason) := by
  unfold LeaseManager.lose
  split_ifs with h
  · exact hm
  · exact hm.drop (by simp [LeaseManager.halt]) (by simp [LeaseManager.halt])
      (by simp [LeaseManager.halt]) (by simp [LeaseManager.halt]) (by simp [LeaseManager.halt])

theorem ManagerOk.clear {s : System ι} {i : ι} {m : LeaseManager} (hm : ManagerOk o s i m) :
    ManagerOk o s i { m with ticking := none } :=
  hm.drop (fun h => ⟨h, rfl⟩) id (by simp) id hm.stopping

theorem ManagerOk.halt {s : System ι} {i : ι} {m : LeaseManager} (hm : ManagerOk o s i m) :
    ManagerOk o s i m.halt :=
  hm.drop (fun h => ⟨h, rfl⟩) id (fun _ h => h) (fun _ => rfl) (fun _ => rfl)

theorem advance_inv {s : System ι} (d : ℕ) (h : Inv o s) :
    Inv o { s with time := s.time + d } := by
  refine ⟨fun i => ?_, h.fresh⟩
  have hi := h.manager i
  have hcov : ∀ e, Covered o s i e → Covered o { s with time := s.time + d } i e := by
    rintro e (hl | hr)
    · exact .inl hl
    · exact .inr (by simp only [mono] at hr ⊢; omega)
  refine ⟨fun hst => hcov _ (hi.covered hst), fun hst => ?_, fun a ha => ?_, hi.released,
    hi.stopping⟩
  · have := hi.deadline_le hst
    simp only [deadlineFrom, mono] at this ⊢
    omega
  · have hold := hi.await a ha
    cases a with
    | tryAcquire c t =>
      obtain ⟨ht, hs, reply, hc, hr⟩ := hold
      refine ⟨?_, hs, reply, hc, fun hrun e he => hcov _ (hr hrun e he)⟩
      simp only [mono] at ht ⊢
      omega
    | renew c t =>
      obtain ⟨ht, e, reply, hc, hr⟩ := hold
      refine ⟨?_, e, reply, hc, fun hrun he => hcov _ (hr hrun he)⟩
      simp only [mono] at ht ⊢
      omega
    | release c => trivial

section Execute

variable (hinj : ∀ i j, (o i).holder = (o j).holder → i = j)

include hinj in
/-- Executing any call keeps every covered deadline covered, except that a release ends
the protection of its own manager. -/
theorem Covered.execute {s t : System ι} {i j : ι} {p : StoreOp} {d : ℤ}
    (hd : d ≤ deadlineFrom o j (mono o s j)) (hc : Covered o s j d)
    (hp : j = i → ∀ e, p ≠ .release e)
    (ht : t.time = s.time) (hrow : t.row = (execute s.row s.time (o i) p).1) :
    Covered o t j d := by
  have hlt := (o j).renew_lt_ttl
  rcases hc with ⟨hh, he⟩ | hover
  swap
  · exact .inr (by simpa [mono, ht] using hover)
  simp only [Covered, mono, ht, hrow, deadlineFrom] at hd ⊢
  by_cases hij : j = i
  · subst hij
    cases p with
    | tryAcquire =>
      simp only [Lease.execute, tryAcquire, hh, ne_eq, not_true_eq_false, false_and, and_false,
        if_false]
      exact .inl ⟨trivial, by omega⟩
    | renew e =>
      simp only [Lease.execute, renew, hh]
      split_ifs
      · exact .inl ⟨hh, he⟩
      · exact .inl ⟨rfl, by dsimp only; omega⟩
    | release e => exact absurd rfl (hp rfl e)
  · have hne : some (o j).holder ≠ some (o i).holder := fun e =>
      hij (hinj j i (Option.some.inj e))
    cases p with
    | tryAcquire =>
      simp only [Lease.execute, tryAcquire, hh, ne_eq, hne, reduceCtorEq, not_false_eq_true,
        true_and]
      split_ifs with hx
      · exact .inl ⟨hh, he⟩
      · exact .inr (by omega)
    | renew e =>
      simp only [Lease.execute, renew, hh, ne_eq, hne, not_false_eq_true, true_or, if_true]
      exact .inl ⟨trivial, he⟩
    | release e =>
      simp only [Lease.execute, release, hh, hne, false_and, if_false]
      exact .inl ⟨trivial, he⟩

/-- A grant or renewal executed after the capture of `t` covers the deadline it gives. -/
theorem covered_of_success {s t : System ι} {i : ι} {p : StoreOp} {start : ℤ} {r : StoreReply}
    (hstart : start ≤ mono o s i) (ht : t.time = s.time)
    (hrow : t.row = (execute s.row s.time (o i) p).1) (hr : (execute s.row s.time (o i) p).2 = r)
    (hok : (∃ e, r = .epoch (some e)) ∨ r = .renewed true) :
    Covered o t i (deadlineFrom o i start) := by
  have hlt := (o i).renew_lt_ttl
  simp only [Covered, deadlineFrom, hrow, mono] at hstart ⊢
  left
  cases p with
  | tryAcquire =>
    simp only [Lease.execute, tryAcquire] at hr ⊢
    split_ifs at hr ⊢ with hx
    · rcases hok with ⟨e, rfl⟩ | rfl <;> simp at hr
    · exact ⟨rfl, by dsimp only; omega⟩
  | renew e =>
    simp only [Lease.execute, renew] at hr ⊢
    split_ifs at hr ⊢ with hx
    · rcases hok with ⟨e, rfl⟩ | rfl <;> simp at hr
    · push Not at hx
      exact ⟨hx.1, by dsimp only; omega⟩
  | release e => rcases hok with ⟨e', rfl⟩ | rfl <;> simp [Lease.execute] at hr

include hinj in
theorem execute_inv {s : System ι} {i : ι} {c : ℕ} {p : StoreOp} (h : Inv o s)
    (hc : s.calls c = some ⟨i, p, none⟩) :
    Inv o { s with
      row := (execute s.row s.time (o i) p).1
      calls := Function.update s.calls c
        (some ⟨i, p, some (execute s.row s.time (o i) p).2⟩) } := by
  refine ⟨fun j => ?_, fun d hd => ?_⟩
  swap
  · have hne : d ≠ c := by
      rintro rfl
      rw [h.fresh d hd] at hc
      cases hc
    simpa [hne] using h.fresh d hd
  have hj := h.manager j
  have hself : j = i → ∀ e, p = .release e →
      (s.managers j).stopped = true ∧ (s.managers j).state = .standby := by
    rintro rfl e rfl
    exact hj.released c e hc
  have hkeep : ∀ d, d ≤ deadlineFrom o j (mono o s j) → Covered o s j d →
      (j = i → ∀ e, p ≠ .release e) → Covered o { s with
        row := (execute s.row s.time (o i) p).1
        calls := Function.update s.calls c
          (some ⟨i, p, some (execute s.row s.time (o i) p).2⟩) } j d :=
    fun d hd hcov hp => hcov.execute hinj hd hp rfl rfl
  refine ⟨fun hst => ?_, hj.deadline_le, fun a ha => ?_, fun c' e hc' => ?_, hj.stopping⟩
  · refine hkeep _ (hj.deadline_le hst) (hj.covered hst) fun hi e he => ?_
    rw [(hself hi e he).2] at hst
    cases hst
  · have hold := hj.await a ha
    cases a with
    | tryAcquire c' t =>
      obtain ⟨ht, hs, reply, hcall, hcov⟩ := hold
      by_cases hcc : c' = c
      · subst hcc
        rw [hcall] at hc
        obtain ⟨rfl, rfl, rfl⟩ : j = i ∧ StoreOp.tryAcquire = p ∧ reply = none := by
          simpa using hc
        refine ⟨ht, hs, _, Function.update_self .., fun _ e he => ?_⟩
        exact covered_of_success ht rfl rfl (Option.some.inj he) (.inl ⟨e, rfl⟩)
      · refine ⟨ht, hs, reply, by simp [hcc, hcall], fun hrun e he => ?_⟩
        refine hkeep _ (by simp only [deadlineFrom]; omega) (hcov hrun e he) fun hi e he => ?_
        simp [(hself hi e he).1] at hrun
    | renew c' t =>
      obtain ⟨ht, e, reply, hcall, hcov⟩ := hold
      by_cases hcc : c' = c
      · subst hcc
        rw [hcall] at hc
        obtain ⟨rfl, rfl, rfl⟩ : j = i ∧ StoreOp.renew e = p ∧ reply = none := by simpa using hc
        refine ⟨ht, e, _, Function.update_self .., fun _ he => ?_⟩
        exact covered_of_success ht rfl rfl (Option.some.inj he) (.inr rfl)
      · refine ⟨ht, e, reply, by simp [hcc, hcall], fun hrun he => ?_⟩
        refine hkeep _ (by simp only [deadlineFrom]; omega) (hcov hrun he) fun hi e he => ?_
        simp [(hself hi e he).1] at hrun
    | release c' => trivial
  · by_cases hcc : c' = c
    · subst hcc
      simp at hc'
    · simp only [Function.update_of_ne hcc] at hc'
      exact hj.released c' e hc'

end Execute

end Frame

theorem state_holder {s : System ι} {i : ι} (h : state o s i = .holder) :
    (s.managers i).state = .holder ∧ mono o s i < (s.managers i).deadline := by
  unfold state at h
  split_ifs at h with hc
  exact ⟨h, by simpa [h] using hc⟩

section Steps

variable {o} [DecidableEq ι]

theorem setManager_inv {s : System ι} {i : ι} {m : LeaseManager} (h : Inv o s)
    (hm : ManagerOk o s i m) : Inv o (setManager s i m) where
  manager j := by
    by_cases hj : j = i
    · subst hj
      have hk : ManagerOk o (setManager s j m) j m :=
        ⟨hm.covered, hm.deadline_le, hm.await, hm.released, hm.stopping⟩
      simpa [setManager] using hk
    · have hm' := h.manager j
      have hk : ManagerOk o (setManager s i m) j (s.managers j) :=
        ⟨hm'.covered, hm'.deadline_le, hm'.await, hm'.released, hm'.stopping⟩
      simpa [setManager, hj] using hk
  fresh := h.fresh

theorem calls_issue {s : System ι} {i : ι} {p : StoreOp} {m : LeaseManager} {c : ℕ}
    {call : StoreCall ι} (h : Inv o s) (hc : s.calls c = some call) :
    (issue s i p m).calls c = some call := by
  have hne : c ≠ s.nextCall := by
    rintro rfl
    rw [h.fresh _ le_rfl] at hc
    cases hc
  simp [issue, hne, hc]

theorem AwaitOk.issue {s : System ι} {i j : ι} {p : StoreOp} {m k : LeaseManager} {a : Awaiting}
    (h : Inv o s) (ha : AwaitOk o s j k a) : AwaitOk o (issue s i p m) j k a := by
  cases a with
  | tryAcquire c t =>
    obtain ⟨ht, hst, reply, hc, hcov⟩ := ha
    exact ⟨ht, hst, reply, calls_issue h hc, hcov⟩
  | renew c t =>
    obtain ⟨ht, e, reply, hc, hcov⟩ := ha
    exact ⟨ht, e, reply, calls_issue h hc, hcov⟩
  | release c => trivial

/-- A sound manager stays sound when a call is issued, unless the call releases its lease. -/
theorem ManagerOk.issue {s : System ι} {i j : ι} {p : StoreOp} {m k : LeaseManager}
    (h : Inv o s) (hk : ManagerOk o s j k)
    (hp : j = i → ∀ e, p = .release e → k.stopped = true ∧ k.state = .standby) :
    ManagerOk o (issue s i p m) j k where
  covered := hk.covered
  deadline_le := hk.deadline_le
  await a ha := (hk.await a ha).issue h
  released c e hc := by
    by_cases hn : c = s.nextCall
    · subst hn
      simp only [Lease.issue, Function.update_self, Option.some.injEq, StoreCall.mk.injEq] at hc
      exact hp hc.1.symm e hc.2.1
    · simp only [Lease.issue, Function.update_of_ne hn, setManager] at hc
      exact hk.released c e hc
  stopping := hk.stopping

theorem issue_inv {s : System ι} {i : ι} {p : StoreOp} {m : LeaseManager} (h : Inv o s)
    (hm : ManagerOk o (issue s i p m) i m) : Inv o (issue s i p m) where
  manager j := by
    by_cases hj : j = i
    · subst hj
      simpa [issue, setManager] using hm
    · have hk : ManagerOk o (issue s i p m) j (s.managers j) :=
        (h.manager j).issue h (fun e => absurd e hj)
      simpa [issue, setManager, hj] using hk
  fresh c hc := by
    have hlt : s.nextCall < c := hc
    simp only [issue, Function.update_of_ne hlt.ne', setManager]
    exact h.fresh c hlt.le

/-- Issuing a call and awaiting it. -/
theorem issue_await_inv {s : System ι} {i : ι} {p : StoreOp} {m : LeaseManager} {a : Awaiting}
    (h : Inv o s) (hm : ManagerOk o s i m)
    (hp : ∀ e, p = .release e → m.stopped = true ∧ m.state = .standby)
    (ha : AwaitOk o (issue s i p { m with ticking := some a }) i m a) :
    Inv o (issue s i p { m with ticking := some a }) := by
  have hk := hm.issue (i := i) (p := p) (m := { m with ticking := some a }) h (fun _ => hp)
  refine issue_inv h ⟨hk.covered, hk.deadline_le, ?_, hk.released, hk.stopping⟩
  intro b hb
  obtain rfl : a = b := by simpa using hb
  cases a with
  | tryAcquire c t => exact ha
  | renew c t => exact ha
  | release c => trivial

theorem tick_inv {s : System ι} (i : ι) (h : Inv o s) : Inv o (tick o s i) := by
  have hm := h.manager i
  unfold tick
  dsimp only
  split_ifs with hbusy hst hdl
  · exact h
  · exact issue_await_inv h hm (by simp) ⟨le_rfl, hst, none, by simp [issue], by simp⟩
  · exact setManager_inv h (hm.lose _)
  · exact issue_await_inv h hm (by simp)
      ⟨le_rfl, (s.managers i).epoch, none, by simp [issue], by simp⟩

/-- A manager adopts a deadline that an executed call covers. -/
theorem adopt_inv {s : System ι} {i : ι} {m : LeaseManager} {t : ℤ} (h : Inv o s)
    (hm : ManagerOk o s i m) (ht : t ≤ mono o s i) (hcov : Covered o s i (deadlineFrom o i t))
    (htick : m.ticking = none) (hrun : m.stopped = false) :
    Inv o (setManager s i (m.extend (o i) t)) := by
  refine setManager_inv h ⟨fun _ => hcov, fun _ => ?_, ?_, fun c e hc => ?_, hm.stopping⟩
  · simp only [LeaseManager.extend, deadlineFrom]
    omega
  · simp [LeaseManager.extend, htick]
  · simp [(hm.released c e hc).1] at hrun

theorem reply_inv {s t : System ι} {i : ι} (h : Inv o s)
    (ht : step o s (.reply i) = some t) : Inv o t := by
  have hm := h.manager i
  simp only [step] at ht
  split at ht
  · cases ht
  next a ha =>
    have hawait := hm.await a ha
    split at ht
    · cases ht
    next r hr =>
      unfold resume at ht
      split at ht
      · exact Option.some.inj ht ▸ setManager_inv h hm.clear
      next c start e =>
        obtain ⟨hstart, hby, reply, hc, hcov⟩ := hawait
        have hreply : reply = some (.epoch (some e)) := by simpa [Awaiting.call, hc] using hr
        split_ifs at ht with hstop
        · obtain rfl := Option.some.inj ht
          exact issue_await_inv h hm (fun _ _ => ⟨hstop, hby⟩) trivial
        · have hrun : (s.managers i).stopped = false := by simpa using hstop
          obtain rfl := Option.some.inj ht
          refine setManager_inv h ⟨fun _ => hcov hrun e hreply, fun _ => ?_, ?_, fun c e hc => ?_,
            hm.stopping⟩
          · simp only [LeaseManager.extend, deadlineFrom]
            omega
          · simp [LeaseManager.extend, LeaseManager.acquired]
          · simp [(hm.released c e hc).1] at hrun
      next c start =>
        obtain ⟨hstart, e, reply, hc, hcov⟩ := hawait
        have hreply : reply = some (.renewed true) := by simpa [Awaiting.call, hc] using hr
        obtain rfl := Option.some.inj ht
        split_ifs with hok
        · exact adopt_inv h hm.clear hstart (hcov hok.2 hreply) rfl hok.2
        · exact setManager_inv h hm.clear
      · exact Option.some.inj ht ▸ setManager_inv h (hm.clear.lose _)
      · exact Option.some.inj ht ▸ setManager_inv h hm.clear
      · cases ht

theorem failed_inv {s t : System ι} {i : ι} {timedOut : Bool} (h : Inv o s)
    (ht : failed o s i timedOut = some t) : Inv o t := by
  have hm := h.manager i
  unfold failed at ht
  dsimp only at ht
  split at ht
  · cases ht
  · exact Option.some.inj ht ▸ setManager_inv h hm.clear
  · obtain rfl := Option.some.inj ht
    split_ifs
    · exact setManager_inv h (hm.clear.lose _)
    · exact setManager_inv h hm.clear

theorem finishStop_inv {s : System ι} {i : ι} {m : LeaseManager} (h : Inv o s)
    (hm : ManagerOk o s i m) (hstop : m.stopped = true) : Inv o (finishStop s i m) := by
  have hk : ManagerOk o s i { m with state := .standby } :=
    hm.drop (by simp) (fun _ => rfl) (fun _ ha => ha) id hm.stopping
  unfold finishStop
  split_ifs
  · exact issue_inv h (hk.issue h fun _ _ _ => ⟨hstop, rfl⟩)
  · exact setManager_inv h hk

theorem deadlineTimer_inv {s t : System ι} {i : ι} (h : Inv o s)
    (ht : step o s (.deadlineTimer i) = some t) : Inv o t := by
  have hm := h.manager i
  have hk : ∀ b, ManagerOk o s i { s.managers i with deadlineTimer := b } := fun b =>
    hm.drop (fun h => ⟨h, rfl⟩) id (fun _ ha => ha) id hm.stopping
  simp only [step] at ht
  split_ifs at ht
  · exact Option.some.inj ht ▸ setManager_inv h (hk false)
  · exact Option.some.inj ht ▸ setManager_inv h ((hk false).lose _)
  · exact Option.some.inj ht ▸ setManager_inv h (hk true)

theorem stop_inv {s t : System ι} {i : ι} (h : Inv o s)
    (ht : step o s (.stop i) = some t) : Inv o t := by
  have hm := (h.manager i).halt
  simp only [step] at ht
  split_ifs at ht
  · exact Option.some.inj ht ▸ finishStop_inv h hm rfl
  · obtain rfl := Option.some.inj ht
    exact setManager_inv h (hm.drop (fun h => ⟨h, rfl⟩) id (fun _ ha => ha) id (fun _ => rfl))

theorem step_inv (hinj : ∀ i j, (o i).holder = (o j).holder → i = j) (s : System ι)
    (a : Action ι) (t : System ι) (h : Inv o s) (ht : step o s a = some t) : Inv o t := by
  cases a with
  | advance d => exact Option.some.inj ht ▸ advance_inv d h
  | start i =>
    have hk : ManagerOk o s i { s.managers i with timer := true } :=
      (h.manager i).drop (fun h => ⟨h, rfl⟩) id (fun _ ha => ha) id (h.manager i).stopping
    simp only [step] at ht
    split_ifs at ht
    · exact Option.some.inj ht ▸ h
    · exact Option.some.inj ht ▸ tick_inv i (setManager_inv h hk)
  | tick i => exact Option.some.inj ht ▸ tick_inv i h
  | execute c =>
    simp only [step] at ht
    split at ht
    next i p hc => exact Option.some.inj ht ▸ execute_inv hinj h hc
    · cases ht
  | reply i => exact reply_inv h ht
  | timeout i => exact failed_inv h ht
  | reject i => exact failed_inv h ht
  | deadlineTimer i => exact deadlineTimer_inv h ht
  | markLost i => exact Option.some.inj ht ▸ setManager_inv h ((h.manager i).lose _)
  | stop i => exact stop_inv h ht
  | stopResume i =>
    have hm := h.manager i
    simp only [step] at ht
    split_ifs at ht with hpos
    have hstop : (s.managers i).stopped = true := hm.stopping (Nat.pos_of_ne_zero hpos)
    exact Option.some.inj ht ▸ finishStop_inv h
      (hm.drop (fun h => ⟨h, rfl⟩) id (fun _ ha => ha) id (fun _ => hstop)) hstop

end Steps

open Transition

/-- In every run of managers with distinct holder ids, from any row and any clock
origins, at most one manager reports `holder`. -/
theorem one_holder [DecidableEq ι] (hinj : ∀ i j, (o i).holder = (o j).holder → i = j) (row : LeaseRow)
    (time : ℤ) (as : List (Action ι)) (s : System ι)
    (hs : run (step o) (initial row time) as = some s) (i j : ι)
    (hi : state o s i = .holder) (hj : state o s j = .holder) : i = j := by
  have hinv := run_invariant (step_inv hinj) (initial_inv o row time) hs
  have hrow : ∀ k, state o s k = .holder → s.row.holder = some (o k).holder := by
    intro k hk
    obtain ⟨hst, hlt⟩ := state_holder o hk
    rcases (hinv.manager k).covered hst with hc | hover
    · exact hc.1
    · omega
  have he := (hrow i hi).symm.trans (hrow j hj)
  exact hinj i j (Option.some.inj he)

/-- Two pods with the default timing. -/
def twoPods (i : Bool) : LeaseOptions :=
  ⟨if i then "pod-b" else "pod-a", 10000, 30000, if i then -7 else 5, by decide⟩

def twoPodsRun : List (Action Bool) :=
  [.tick false, .tick true, .execute 0, .execute 1, .reply false, .reply true, .advance 9000]

/-- One pod holds the lease; the other's acquire is refused and it stays on standby. -/
theorem one_holder_two_pods :
    ∃ s, run (step twoPods) (initial memoryLeaseStore 0) twoPodsRun = some s ∧
      state twoPods s false = .holder ∧ ∀ j, state twoPods s j = .holder → j = false := by
  refine ⟨_, rfl, by decide, fun j hj => ?_⟩
  exact one_holder twoPods (by decide) memoryLeaseStore 0 twoPodsRun _ rfl j false hj (by decide)

end ClaudeFleet.Lease
