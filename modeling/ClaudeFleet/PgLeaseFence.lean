import ClaudeFleet.PgLease

/-! Fenced writes and granted epochs over every interleaving of lease and write
transactions. Epochs grow unconditionally: a new version of the row exists only under the
row's update lock, or before the row does. The fence holds as long as the conflict branch
of the upsert runs under the FOR UPDATE lock its transaction asked for first. -/
namespace ClaudeFleet.PgLease

open Transition

def epochOf (row : Option HostLease) : ℕ := (row.map HostLease.epoch).getD 0

/-- The transaction that owns the uncommitted version `r` of the row. -/
def Owns (row : Option HostLease) (r : HostLease) : Txn → Prop
  | .tryAcquire _ _ (.upserted (some e)) => r.epoch = e ∧ e = epochOf row + 1
  | .renew _ _ _ true => r.epoch = epochOf row
  | .release _ _ .updated => r.epoch = epochOf row
  | _ => False

structure Inv (s : Db) : Prop where
  compatible : ∀ l ∈ s.locks, ∀ k ∈ s.locks, l.1 ≠ k.1 → conflicts l.2 k.2 = false
  pending : ∀ t r, s.pending = some (t, r) →
    (∃ x, s.txns t = some x ∧ Owns s.row r x) ∧ (s.row ≠ none → (t, .noKeyUpdate) ∈ s.locks)
  granted : ∀ t holder ttlMs e, s.txns t = some (.tryAcquire holder ttlMs (.upserted (some e))) →
    ∃ r, s.pending = some (t, r)
  logged : ∀ e, .granted e ∈ s.log → e ≤ epochOf s.row
  epochs : s.log.Pairwise fun a b => ∀ e e', a = .granted e → b = .granted e' → e < e'

theorem conflicts_comm (a b : LockMode) : conflicts a b = conflicts b a := by
  cases a <;> cases b <;> rfl

theorem grantable_iff {s : Db} {t : ℕ} {mode : LockMode} :
    grantable s t mode = true ↔ ∀ l ∈ s.locks, l.1 ≠ t → conflicts mode l.2 = false := by
  simp only [grantable, List.all_eq_true, Bool.or_eq_true, decide_eq_true_eq,
    Bool.not_eq_true', or_iff_not_imp_left, ne_eq]

theorem lock_compatible {s : Db} {t : ℕ} {mode : LockMode}
    (h : ∀ l ∈ s.locks, ∀ k ∈ s.locks, l.1 ≠ k.1 → conflicts l.2 k.2 = false)
    (hg : grantable s t mode = true) :
    ∀ l ∈ (t, mode) :: s.locks, ∀ k ∈ (t, mode) :: s.locks, l.1 ≠ k.1 →
      conflicts l.2 k.2 = false := by
  have hg' := grantable_iff.mp hg
  intro l hl k hk hne
  rcases List.mem_cons.mp hl with rfl | hl <;> rcases List.mem_cons.mp hk with rfl | hk
  · exact absurd rfl hne
  · exact hg' k hk (Ne.symm hne)
  · rw [conflicts_comm]
    exact hg' l hl hne
  · exact h l hl k hk hne

/-- No other transaction owns the uncommitted version while this one may update the row. -/
theorem pending_none {s : Db} (h : Inv s) {t : ℕ} {x : Txn} (hrow : s.row ≠ none)
    (hg : grantable s t .noKeyUpdate = true) (hx : s.txns t = some x) (hf : ∀ r, ¬ Owns s.row r x) :
    s.pending = none := by
  rcases hp : s.pending with _ | ⟨u, r⟩
  · rfl
  · obtain ⟨⟨y, hy, ho⟩, hl⟩ := h.pending u r hp
    by_cases hu : u = t
    · subst hu
      rw [hx] at hy
      exact absurd (Option.some.inj hy ▸ ho) (hf r)
    · have := grantable_iff.mp hg _ (hl hrow) hu
      simp [conflicts] at this

/-- The open transaction moves on without taking or leaving the uncommitted version. -/
theorem setTxn_inv {s : Db} (h : Inv s) {t : ℕ} {y : Txn} (hp : ∀ r, s.pending ≠ some (t, r))
    (hy : ∀ holder ttlMs e, y ≠ .tryAcquire holder ttlMs (.upserted (some e))) :
    Inv (setTxn s t (some y)) where
  compatible := h.compatible
  pending u r hu := by
    have hne : u ≠ t := fun e => hp r (e ▸ hu)
    simpa [setTxn, hne] using h.pending u r hu
  granted u holder ttlMs e hu := by
    by_cases hut : u = t
    · subst hut
      simp only [setTxn, Function.update_self, Option.some.injEq] at hu
      exact absurd hu (hy holder ttlMs e)
    · simp only [setTxn, Function.update_of_ne hut] at hu
      exact h.granted u holder ttlMs e hu
  logged := h.logged
  epochs := h.epochs

theorem lock_inv {s : Db} (h : Inv s) {t : ℕ} {mode : LockMode}
    (hg : grantable s t mode = true) : Inv (lock s t mode) where
  compatible := lock_compatible h.compatible hg
  pending u r hu := by
    obtain ⟨ho, hl⟩ := h.pending u r hu
    exact ⟨ho, fun hrow => List.mem_cons_of_mem _ (hl hrow)⟩
  granted := h.granted
  logged := h.logged
  epochs := h.epochs

/-- The open transaction takes the uncommitted version, which nobody else owns. -/
theorem own_inv {s : Db} (h : Inv s) {t : ℕ} {y : Txn} {r : HostLease} (hp : s.pending = none)
    (hl : s.row ≠ none → (t, .noKeyUpdate) ∈ s.locks) (ho : Owns s.row r y) :
    Inv { setTxn s t (some y) with pending := some (t, r) } where
  compatible := h.compatible
  pending u q hu := by
    obtain ⟨rfl, rfl⟩ : t = u ∧ r = q := by simpa using hu
    exact ⟨⟨y, by simp [setTxn], ho⟩, hl⟩
  granted u holder ttlMs e hu := by
    by_cases hut : u = t
    · exact ⟨r, by simp [hut]⟩
    · simp only [setTxn, Function.update_of_ne hut] at hu
      obtain ⟨q, hq⟩ := h.granted u holder ttlMs e hu
      rw [hp] at hq
      cases hq
  logged := h.logged
  epochs := h.epochs

theorem finish_pending {s : Db} {t u : ℕ} {r : HostLease} :
    (finish s t).pending = some (u, r) ↔ s.pending = some (u, r) ∧ u ≠ t := by
  simp only [finish, Option.filter_eq_some_iff, decide_eq_true_eq]

theorem mem_finish_locks {s : Db} {t : ℕ} {l : ℕ × LockMode} :
    l ∈ (finish s t).locks ↔ l ∈ s.locks ∧ l.1 ≠ t := by
  simp [finish, List.mem_filter]

theorem finish_txns {s : Db} {t u : ℕ} {x : Txn} :
    (finish s t).txns u = some x ↔ s.txns u = some x ∧ u ≠ t := by
  by_cases h : u = t <;> simp [finish, setTxn, h]

theorem finish_inv {s : Db} (h : Inv s) (t : ℕ) : Inv (finish s t) where
  compatible l hl k hk := h.compatible l (mem_finish_locks.mp hl).1 k (mem_finish_locks.mp hk).1
  pending u r hu := by
    obtain ⟨hp, hne⟩ := finish_pending.mp hu
    obtain ⟨⟨x, hx, ho⟩, hl⟩ := h.pending u r hp
    exact ⟨⟨x, finish_txns.mpr ⟨hx, hne⟩, ho⟩, fun hrow => mem_finish_locks.mpr ⟨hl hrow, hne⟩⟩
  granted u holder ttlMs e hu := by
    obtain ⟨hx, hne⟩ := finish_txns.mp hu
    obtain ⟨r, hr⟩ := h.granted u holder ttlMs e hx
    exact ⟨r, finish_pending.mpr ⟨hr, hne⟩⟩
  logged := h.logged
  epochs := h.epochs

/-- What a commit does to the epoch: a granting acquire moves it up by one, every other
transaction leaves it where it is. -/
theorem commit_epoch {s : Db} (h : Inv s) {t : ℕ} {x : Txn} {events : List Event}
    (hx : s.txns t = some x) (hc : commitLog x = some events) :
    (epochOf (published s t) = epochOf s.row + 1 ∧ events = [.granted (epochOf s.row + 1)] ∧
      ∃ holder ttlMs, x = .tryAcquire holder ttlMs (.upserted (some (epochOf s.row + 1)))) ∨
    (epochOf (published s t) = epochOf s.row ∧ ∀ e, .granted e ∉ events) := by
  by_cases hp : ∃ r, s.pending = some (t, r)
  · obtain ⟨r, hr⟩ := hp
    obtain ⟨⟨y, hy, ho⟩, -⟩ := h.pending t r hr
    obtain rfl : x = y := Option.some.inj (hx.symm.trans hy)
    have hpub : published s t = some r := by simp [published, hr]
    rw [hpub]
    unfold commitLog at hc
    split at hc <;> simp only [Owns] at ho hc
    · obtain ⟨he, rfl⟩ := ho
      exact .inl ⟨he, (Option.some.inj hc).symm, _, _, rfl⟩
    · exact .inr ⟨ho, by simp [← Option.some.inj hc]⟩
    · exact .inr ⟨ho, by simp [← Option.some.inj hc]⟩
  · have hpub : published s t = s.row := by
      unfold published
      split
      next u r hr =>
        rw [if_neg]
        rintro rfl
        exact hp ⟨r, hr⟩
      · rfl
    refine .inr ⟨by rw [hpub], ?_⟩
    unfold commitLog at hc
    split at hc <;> simp only [reduceCtorEq, Option.some.injEq] at hc
    · exact absurd (h.granted t _ _ _ hx) hp
    all_goals simp [← hc]

theorem commit_inv {s : Db} (h : Inv s) {t : ℕ} {x : Txn} {events : List Event}
    (hx : s.txns t = some x) (hc : commitLog x = some events) :
    Inv { finish s t with row := published s t, log := s.log ++ events } := by
  have hf := finish_inv h t
  have hle : epochOf s.row ≤ epochOf (published s t) := by
    rcases commit_epoch h hx hc with ⟨he, -, -⟩ | ⟨he, -⟩ <;> omega
  have hkeep : ∀ u r, (finish s t).pending = some (u, r) → published s t = s.row := by
    intro u r hu
    obtain ⟨hp, hne⟩ := finish_pending.mp hu
    simp [published, hp, hne]
  refine ⟨hf.compatible, fun u r hu => ?_, hf.granted, fun e he => ?_, ?_⟩
  · dsimp only
    rw [hkeep u r hu]
    exact hf.pending u r hu
  · rcases List.mem_append.mp he with he | he
    · exact (h.logged e he).trans hle
    · rcases commit_epoch h hx hc with ⟨hep, rfl, -⟩ | ⟨-, hno⟩
      · obtain rfl : e = epochOf s.row + 1 := by simpa using he
        exact hep.ge
      · exact absurd he (hno e)
  · refine List.pairwise_append.mpr ⟨h.epochs, ?_, ?_⟩
    · rcases commit_epoch h hx hc with ⟨-, rfl, -⟩ | ⟨-, hno⟩
      · simp
      · refine List.pairwise_iff_forall_sublist.mpr fun {a b} hab e e' ha hb => ?_
        exact absurd (ha ▸ hab.subset (by simp)) (hno e)
    · rintro a ha b hb e e' rfl rfl
      rcases commit_epoch h hx hc with ⟨-, rfl, -⟩ | ⟨-, hno⟩
      · have := h.logged e ha
        obtain rfl : e' = epochOf s.row + 1 := by simpa using hb
        omega
      · exact absurd hb (hno e')

theorem not_pending {s : Db} (h : Inv s) {t : ℕ} {x : Txn} (hx : s.txns t = some x)
    (hf : ∀ r, ¬ Owns s.row r x) (r : HostLease) : s.pending ≠ some (t, r) := by
  intro hp
  obtain ⟨⟨y, hy, ho⟩, -⟩ := h.pending t r hp
  exact hf r (Option.some.inj (hx.symm.trans hy) ▸ ho)

theorem exclusive_inv {s v : Db} (h : Inv s) {t : ℕ} {x y : Txn} (hx : s.txns t = some x)
    (hf : ∀ r, ¬ Owns s.row r x)
    (hy : ∀ holder ttlMs e, y ≠ .tryAcquire holder ttlMs (.upserted (some e)))
    (hv : exclusive s t y = some v) : Inv v := by
  have hs := setTxn_inv h (not_pending h hx hf) hy
  unfold exclusive at hv
  split at hv
  · exact Option.some.inj hv ▸ hs
  · split_ifs at hv with hg
    exact Option.some.inj hv ▸ lock_inv hs hg

theorem upsertLease_inv {s v : Db} (h : Inv s) {t : ℕ} {holder : String} {ttlMs : ℕ}
    (hx : s.txns t = some (.tryAcquire holder ttlMs .selected))
    (hv : upsertLease s t holder ttlMs = some v) : Inv v := by
  have hf : ∀ r, ¬ Owns s.row r (.tryAcquire holder ttlMs .selected) := fun r ho => ho
  unfold upsertLease at hv
  dsimp only at hv
  split at hv
  next hrow =>
    split_ifs at hv with hp
    obtain rfl := Option.some.inj hv
    exact own_inv h hp (fun hr => absurd hrow hr) ⟨rfl, by simp [hrow, epochOf]⟩
  next r hrow =>
    split_ifs at hv with hg hw
    · obtain rfl := Option.some.inj hv
      have hp := pending_none h (by simp [hrow]) hg hx hf
      exact own_inv (lock_inv h hg) hp (fun _ => List.mem_cons_self ..)
        ⟨rfl, by simp [lock, hrow, epochOf]⟩
    · obtain rfl := Option.some.inj hv
      exact lock_inv (setTxn_inv h (not_pending h hx hf) (by simp)) hg

theorem updateLease_inv {s v : Db} (h : Inv s) {t : ℕ} {x y : Txn} {holder : String} {epoch : ℕ}
    {set : HostLease → HostLease} (hx : s.txns t = some x) (hf : ∀ r, ¬ Owns s.row r x)
    (hy : ∀ holder ttlMs e, y ≠ .tryAcquire holder ttlMs (.upserted (some e)))
    (ho : ∀ r, s.row = some r → Owns s.row (set r) y)
    (hv : updateLease s t holder epoch y set = some v) : Inv v := by
  have hs := setTxn_inv h (not_pending h hx hf) hy
  unfold updateLease at hv
  split at hv
  · exact Option.some.inj hv ▸ hs
  next r hrow =>
    split_ifs at hv with hm hg
    · obtain rfl := Option.some.inj hv
      have hp := pending_none h (by simp [hrow]) hg hx hf
      exact own_inv (lock_inv h hg) hp (fun _ => List.mem_cons_self ..) (ho r hrow)
    · exact Option.some.inj hv ▸ hs

theorem leaseFence_inv {s v : Db} (h : Inv s) {t : ℕ} {holder : String} {mine : Option ℕ}
    (hx : s.txns t = some (.write holder mine false))
    (hv : leaseFence s t holder mine = some v) : Inv v := by
  have hs := setTxn_inv (y := .write holder mine true) h (not_pending h hx fun r ho => ho)
    (by simp)
  unfold leaseFence at hv
  split at hv
  · exact Option.some.inj hv ▸ finish_inv h t
  · exact Option.some.inj hv ▸ finish_inv h t
  · split_ifs at hv with hg hm
    · exact Option.some.inj hv ▸ lock_inv hs hg
    · exact Option.some.inj hv ▸ finish_inv h t

theorem step_inv (s : Db) (a : Action) (v : Db) (h : Inv s) (hv : step s a = some v) : Inv v := by
  cases a with
  | begin t txn =>
    simp only [step] at hv
    split_ifs at hv with hfr
    obtain rfl := Option.some.inj hv
    refine setTxn_inv h (fun r hp => ?_) (fun holder ttlMs e he => ?_)
    · obtain ⟨⟨x, hx, -⟩, -⟩ := h.pending t r hp
      rw [hfr.1] at hx
      cases hx
    · simp [he, Txn.fresh] at hfr
  | selectForUpdate t =>
    simp only [step] at hv
    split at hv
    next hx => exact exclusive_inv h hx (fun r ho => ho) (by simp) hv
    next hx => exact exclusive_inv h hx (fun r ho => ho) (by simp) hv
    · cases hv
  | upsert t =>
    simp only [step] at hv
    split at hv
    next hx => exact upsertLease_inv h hx hv
    · cases hv
  | update t =>
    simp only [step] at hv
    split at hv
    next hx =>
      exact updateLease_inv h hx (fun r ho => ho) (by simp)
        (fun r hr => by simp [Owns, epochOf, hr]) hv
    next hx =>
      exact updateLease_inv h hx (fun r ho => ho) (by simp)
        (fun r hr => by simp [Owns, epochOf, hr]) hv
    · cases hv
  | fence t =>
    simp only [step] at hv
    split at hv
    next hx => exact leaseFence_inv h hx hv
    · cases hv
  | commit t =>
    simp only [step] at hv
    split at hv
    next events hev =>
      obtain ⟨x, hx, hc⟩ := Option.bind_eq_some_iff.mp hev
      exact Option.some.inj hv ▸ commit_inv h hx hc
    · cases hv
  | rollback t => exact Option.some.inj hv ▸ finish_inv h t
  | advance d =>
    obtain rfl := Option.some.inj hv
    exact ⟨h.compatible, h.pending, h.granted, h.logged, h.epochs⟩

theorem initial_inv (row : Option HostLease) (now : ℤ) : Inv { row := row, now := now } := by
  constructor <;> simp

/-- The epochs granted over any run are strictly increasing. -/
theorem granted_increasing (row : Option HostLease) (now : ℤ) (as : List Action) (s : Db)
    (hs : run step { row := row, now := now } as = some s) :
    s.log.Pairwise fun a b => ∀ e e', a = .granted e → b = .granted e' → e < e' :=
  (run_invariant step_inv (initial_inv row now) hs).epochs

/-- The upsert meets an existing row only under the FOR UPDATE lock that its transaction's
first statement takes when it finds the row. -/
def UnderLock (s : Db) : Action → Prop
  | .upsert t => s.row ≠ none → (t, .update) ∈ s.locks
  | _ => True

instance (s : Db) (a : Action) : Decidable (UnderLock s a) := by
  cases a <;> unfold UnderLock <;> infer_instance

/-- A fenced write still open holds its key-share lock on a row of its own epoch, and a
grant still open holds the row exclusively. -/
structure Fenced (s : Db) : Prop where
  inv : Inv s
  writes : ∀ t holder e, s.txns t = some (.write holder (some e) true) →
    (t, .keyShare) ∈ s.locks ∧ s.row ≠ none ∧ epochOf s.row = e
  grants : ∀ t holder ttlMs e, s.txns t = some (.tryAcquire holder ttlMs (.upserted (some e))) →
    s.row ≠ none → (t, .update) ∈ s.locks
  ordered : s.log.Pairwise Ordered

/-- Only transaction `t` moves, to `y`; the row stays and locks are only added. -/
theorem Fenced.move {s v : Db} (h : Fenced s) (hinv : Inv v) {t : ℕ} {y : Txn}
    (htx : v.txns = Function.update s.txns t (some y)) (hrow : v.row = s.row)
    (hlog : v.log = s.log) (hlocks : s.locks ⊆ v.locks)
    (hw : ∀ holder e, y = .write holder (some e) true →
      (t, .keyShare) ∈ v.locks ∧ s.row ≠ none ∧ epochOf s.row = e)
    (hg : ∀ holder ttlMs e, y = .tryAcquire holder ttlMs (.upserted (some e)) →
      s.row ≠ none → (t, .update) ∈ s.locks) : Fenced v := by
  refine ⟨hinv, fun u holder e hu => ?_, fun u holder ttlMs e hu hr => ?_, hlog ▸ h.ordered⟩
  · rw [htx] at hu
    rw [hrow]
    by_cases hut : u = t
    · subst hut
      exact hw holder e (by simpa using hu)
    · rw [Function.update_of_ne hut] at hu
      obtain ⟨hl, hn, he⟩ := h.writes u holder e hu
      exact ⟨hlocks hl, hn, he⟩
  · rw [htx] at hu
    rw [hrow] at hr
    by_cases hut : u = t
    · subst hut
      exact hlocks (hg holder ttlMs e (by simpa using hu) hr)
    · rw [Function.update_of_ne hut] at hu
      exact hlocks (h.grants u holder ttlMs e hu hr)

theorem Fenced.finish {s : Db} (h : Fenced s) (t : ℕ) : Fenced (finish s t) where
  inv := finish_inv h.inv t
  writes u holder e hu := by
    obtain ⟨hx, hne⟩ := finish_txns.mp hu
    obtain ⟨hl, hr⟩ := h.writes u holder e hx
    exact ⟨mem_finish_locks.mpr ⟨hl, hne⟩, hr⟩
  grants u holder ttlMs e hu hr := by
    obtain ⟨hx, hne⟩ := finish_txns.mp hu
    exact mem_finish_locks.mpr ⟨h.grants u holder ttlMs e hx hr, hne⟩
  ordered := h.ordered

theorem published_ne_none {s : Db} {t : ℕ} (h : s.row ≠ none) : published s t ≠ none := by
  unfold published
  split
  · split_ifs
    · simp
    · exact h
  · exact h

theorem commitLog_ordered {x : Txn} {events : List Event} (h : commitLog x = some events) :
    events.Pairwise Ordered := by
  unfold commitLog at h
  split at h <;> simp only [Option.some.injEq, reduceCtorEq] at h <;> simp [← h]

theorem commitLog_wrote {x : Txn} {events : List Event} {holder : String} {e : ℕ}
    (h : commitLog x = some events) (hm : .wrote holder e ∈ events) :
    x = .write holder (some e) true := by
  unfold commitLog at h
  split at h <;> simp only [Option.some.injEq, reduceCtorEq] at h <;> simp [← h] at hm
  rw [hm.1, hm.2]

theorem Fenced.commit {s : Db} (h : Fenced s) {t : ℕ} {x : Txn} {events : List Event}
    (hx : s.txns t = some x) (hc : commitLog x = some events) :
    Fenced { PgLease.finish s t with row := published s t, log := s.log ++ events } := by
  have hf := h.finish t
  have hsplit := commit_epoch h.inv hx hc
  refine ⟨commit_inv h.inv hx hc, fun u holder e hu => ?_, fun u holder ttlMs e hu hr => ?_, ?_⟩
  · obtain ⟨hl, hn, he⟩ := hf.writes u holder e hu
    rcases hsplit with ⟨-, -, holder', ttlMs, rfl⟩ | ⟨hep, -⟩
    · have hlt := h.grants t holder' ttlMs _ hx hn
      have hut := (mem_finish_locks.mp hl).2
      have := h.inv.compatible _ (mem_finish_locks.mp hl).1 _ hlt hut
      simp [conflicts] at this
    · exact ⟨hl, published_ne_none hn, hep.trans he⟩
  · obtain ⟨r, hp⟩ := hf.inv.granted u holder ttlMs e hu
    obtain ⟨hp', hut⟩ := finish_pending.mp hp
    have hpub : published s t = s.row := by simp [published, hp', hut]
    exact hf.grants u holder ttlMs e hu (hpub ▸ hr)
  · refine List.pairwise_append.mpr ⟨h.ordered, ?_, fun a ha b hb => ?_⟩
    · exact commitLog_ordered hc
    · rcases a with e | ⟨holder, e⟩
      · have hle := h.inv.logged e ha
        rcases b with e' | ⟨holder, e'⟩
        · rcases hsplit with ⟨-, rfl, -⟩ | ⟨-, hno⟩
          · obtain rfl : e' = epochOf s.row + 1 := by simpa using hb
            exact Nat.lt_succ_of_le hle
          · exact absurd hb (hno e')
        · have hw := commitLog_wrote hc hb
          exact (h.writes t holder e' (hw ▸ hx)).2.2 ▸ hle
      · trivial

theorem Fenced.step (s : Db) (a : Action) (v : Db) (h : Fenced s) (hok : UnderLock s a)
    (hv : PgLease.step s a = some v) : Fenced v := by
  have hinv := step_inv s a v h.inv hv
  cases a with
  | begin t txn =>
    simp only [PgLease.step] at hv
    split_ifs at hv with hfr
    obtain rfl := Option.some.inj hv
    refine h.move hinv rfl rfl rfl (fun l hl => hl) (fun holder e he => ?_)
      (fun holder ttlMs e he => ?_) <;> simp [he, Txn.fresh] at hfr
  | selectForUpdate t =>
    have hex : ∀ y, exclusive s t y = some v → (∀ holder e, y ≠ .write holder (some e) true) →
        (∀ holder ttlMs e, y ≠ .tryAcquire holder ttlMs (.upserted (some e))) → Fenced v := by
      intro y hy hw hg
      unfold exclusive at hy
      split at hy
      · obtain rfl := Option.some.inj hy
        exact h.move hinv rfl rfl rfl (fun l hl => hl) (fun _ _ e => absurd e (hw _ _))
          (fun _ _ _ e => absurd e (hg _ _ _))
      · split_ifs at hy
        obtain rfl := Option.some.inj hy
        exact h.move hinv rfl rfl rfl (List.subset_cons_self ..) (fun _ _ e => absurd e (hw _ _))
          (fun _ _ _ e => absurd e (hg _ _ _))
    simp only [PgLease.step] at hv
    split at hv
    · exact hex _ hv (by simp) (by simp)
    · exact hex _ hv (by simp) (by simp)
    · cases hv
  | upsert t =>
    simp only [PgLease.step] at hv
    split at hv
    swap
    · cases hv
    next holder ttlMs hx =>
      unfold upsertLease at hv
      dsimp only at hv
      split at hv
      next hrow =>
        split_ifs at hv
        obtain rfl := Option.some.inj hv
        exact h.move hinv rfl rfl rfl (fun l hl => hl) (by simp) (fun _ _ _ _ hr => absurd hrow hr)
      · split_ifs at hv
        · obtain rfl := Option.some.inj hv
          exact h.move hinv rfl rfl rfl (List.subset_cons_self ..) (by simp) (fun _ _ _ _ => hok)
        · obtain rfl := Option.some.inj hv
          exact h.move hinv rfl rfl rfl (List.subset_cons_self ..) (by simp) (by simp)
  | update t =>
    have hup : ∀ y holder epoch set, updateLease s t holder epoch y set = some v →
        (∀ holder e, y ≠ .write holder (some e) true) →
        (∀ holder ttlMs e, y ≠ .tryAcquire holder ttlMs (.upserted (some e))) → Fenced v := by
      intro y holder epoch set hy hw hg
      unfold updateLease at hy
      split at hy
      · obtain rfl := Option.some.inj hy
        exact h.move hinv rfl rfl rfl (fun l hl => hl) (fun _ _ e => absurd e (hw _ _))
          (fun _ _ _ e => absurd e (hg _ _ _))
      · split_ifs at hy
        · obtain rfl := Option.some.inj hy
          exact h.move hinv rfl rfl rfl (List.subset_cons_self ..)
            (fun _ _ e => absurd e (hw _ _)) (fun _ _ _ e => absurd e (hg _ _ _))
        · obtain rfl := Option.some.inj hy
          exact h.move hinv rfl rfl rfl (fun l hl => hl) (fun _ _ e => absurd e (hw _ _))
            (fun _ _ _ e => absurd e (hg _ _ _))
    simp only [PgLease.step] at hv
    split at hv
    · exact hup _ _ _ _ hv (by simp) (by simp)
    · exact hup _ _ _ _ hv (by simp) (by simp)
    · cases hv
  | fence t =>
    simp only [PgLease.step] at hv
    split at hv
    swap
    · cases hv
    next holder mine hx =>
      unfold leaseFence at hv
      split at hv
      · exact Option.some.inj hv ▸ h.finish t
      · exact Option.some.inj hv ▸ h.finish t
      next e r hrow =>
        split_ifs at hv with hg hm
        · obtain rfl := Option.some.inj hv
          refine h.move hinv rfl rfl rfl (List.subset_cons_self ..) (fun _ e' he => ?_) (by simp)
          obtain ⟨-, rfl⟩ : holder = _ ∧ e = e' := by simpa using he
          exact ⟨List.mem_cons_self .., by simp [hrow], by simp [hrow, epochOf, hm.2.1]⟩
        · exact Option.some.inj hv ▸ h.finish t
  | commit t =>
    simp only [PgLease.step] at hv
    split at hv
    next events hev =>
      obtain ⟨x, hx, hc⟩ := Option.bind_eq_some_iff.mp hev
      exact Option.some.inj hv ▸ h.commit hx hc
    · cases hv
  | rollback t => exact Option.some.inj hv ▸ h.finish t
  | advance d =>
    obtain rfl := Option.some.inj hv
    exact ⟨hinv, h.writes, h.grants, h.ordered⟩

/-- In every run whose upserts meet an existing row only under its FOR UPDATE lock, granted
epochs strictly increase and no fenced write commits after a later epoch was granted. -/
theorem fenced_writes (row : Option HostLease) (now : ℤ) (as : List Action) (s : Db)
    (hs : run step { row := row, now := now } as = some s)
    (hok : Along step UnderLock { row := row, now := now } as) : s.log.Pairwise Ordered := by
  have h0 : Fenced { row := row, now := now } := ⟨initial_inv row now, by simp, by simp, by simp⟩
  exact (run_invariant_along Fenced.step h0 hs hok).ordered

/-- Pod a acquires and writes; pod b takes over after the write committed and the lease
expired; a's next write is refused. -/
def takeover : List Action :=
  [.begin 1 (.tryAcquire "a" 30000 .begun), .selectForUpdate 1, .upsert 1, .commit 1,
    .begin 2 (.write "a" (some 1) false), .fence 2, .advance 30000,
    .begin 3 (.tryAcquire "b" 30000 .begun), .commit 2, .selectForUpdate 3, .upsert 3, .commit 3,
    .begin 4 (.write "a" (some 1) false), .fence 4]

theorem fenced_writes_takeover :
    ∃ s, run step { row := none } takeover = some s ∧
      s.log = [.granted 1, .wrote "a" 1, .granted 2] ∧ s.log.Pairwise Ordered := by
  refine ⟨_, rfl, by decide, ?_⟩
  exact fenced_writes none 0 takeover _ rfl (by decide)

/-- With the row in place, every acquire past its first statement holds it FOR UPDATE. -/
structure Exclusive (s : Db) : Prop where
  row : s.row ≠ none
  selected : ∀ t holder ttlMs, s.txns t = some (.tryAcquire holder ttlMs .selected) →
    (t, .update) ∈ s.locks

theorem Exclusive.move {s v : Db} (h : Exclusive s) {t : ℕ} {y : Txn}
    (htx : v.txns = Function.update s.txns t (some y)) (hrow : v.row = s.row)
    (hlocks : s.locks ⊆ v.locks)
    (hy : ∀ holder ttlMs, y = .tryAcquire holder ttlMs .selected → (t, .update) ∈ v.locks) :
    Exclusive v := by
  refine ⟨hrow ▸ h.row, fun u holder ttlMs hu => ?_⟩
  rw [htx] at hu
  by_cases hut : u = t
  · subst hut
    exact hy holder ttlMs (by simpa using hu)
  · rw [Function.update_of_ne hut] at hu
    exact hlocks (h.selected u holder ttlMs hu)

theorem Exclusive.finish {s : Db} (h : Exclusive s) (t : ℕ) : Exclusive (finish s t) where
  row := h.row
  selected u holder ttlMs hu := by
    obtain ⟨hx, hne⟩ := finish_txns.mp hu
    exact mem_finish_locks.mpr ⟨h.selected u holder ttlMs hx, hne⟩

theorem Exclusive.underLock {s v : Db} (h : Exclusive s) {a : Action}
    (hv : PgLease.step s a = some v) : UnderLock s a := by
  cases a with
  | upsert t =>
    simp only [PgLease.step] at hv
    split at hv
    next hx => exact fun _ => h.selected t _ _ hx
    · cases hv
  | _ => trivial

theorem Exclusive.step (s : Db) (a : Action) (v : Db) (h : Exclusive s)
    (hv : PgLease.step s a = some v) : Exclusive v := by
  cases a with
  | begin t txn =>
    simp only [PgLease.step] at hv
    split_ifs at hv with hfr
    obtain rfl := Option.some.inj hv
    refine h.move rfl rfl (fun l hl => hl) (fun holder ttlMs he => ?_)
    simp [he, Txn.fresh] at hfr
  | selectForUpdate t =>
    have hex : ∀ y, exclusive s t y = some v → Exclusive v := by
      intro y hy
      unfold exclusive at hy
      split at hy
      next hrow => exact absurd hrow h.row
      · split_ifs at hy
        obtain rfl := Option.some.inj hy
        exact h.move rfl rfl (List.subset_cons_self ..) (fun _ _ _ => List.mem_cons_self ..)
    simp only [PgLease.step] at hv
    split at hv
    · exact hex _ hv
    · exact hex _ hv
    · cases hv
  | upsert t =>
    simp only [PgLease.step] at hv
    split at hv
    swap
    · cases hv
    unfold upsertLease at hv
    dsimp only at hv
    split at hv
    next hrow => exact absurd hrow h.row
    · split_ifs at hv
      · obtain rfl := Option.some.inj hv
        exact h.move rfl rfl (List.subset_cons_self ..) (by simp)
      · obtain rfl := Option.some.inj hv
        exact h.move rfl rfl (List.subset_cons_self ..) (by simp)
  | update t =>
    have hup : ∀ y holder epoch set, updateLease s t holder epoch y set = some v →
        (∀ holder ttlMs, y ≠ .tryAcquire holder ttlMs .selected) → Exclusive v := by
      intro y holder epoch set hy hne
      unfold updateLease at hy
      split at hy
      next hrow => exact absurd hrow h.row
      · split_ifs at hy
        · obtain rfl := Option.some.inj hy
          exact h.move rfl rfl (List.subset_cons_self ..) (fun _ _ e => absurd e (hne _ _))
        · obtain rfl := Option.some.inj hy
          exact h.move rfl rfl (fun l hl => hl) (fun _ _ e => absurd e (hne _ _))
    simp only [PgLease.step] at hv
    split at hv
    · exact hup _ _ _ _ hv (by simp)
    · exact hup _ _ _ _ hv (by simp)
    · cases hv
  | fence t =>
    simp only [PgLease.step] at hv
    split at hv
    swap
    · cases hv
    unfold leaseFence at hv
    split at hv
    · exact Option.some.inj hv ▸ h.finish t
    · exact Option.some.inj hv ▸ h.finish t
    · split_ifs at hv
      · obtain rfl := Option.some.inj hv
        exact h.move rfl rfl (List.subset_cons_self ..) (by simp)
      · exact Option.some.inj hv ▸ h.finish t
  | commit t =>
    simp only [PgLease.step] at hv
    split at hv
    · obtain rfl := Option.some.inj hv
      exact ⟨published_ne_none h.row, (h.finish t).selected⟩
    · cases hv
  | rollback t => exact Option.some.inj hv ▸ h.finish t
  | advance d =>
    obtain rfl := Option.some.inj hv
    exact ⟨h.row, h.selected⟩

/-- Once the row exists, the condition of `fenced_writes` holds of every run. -/
theorem fenced_writes_of_row (row : HostLease) (now : ℤ) (as : List Action) (s : Db)
    (hs : run step { row := some row, now := now } as = some s) : s.log.Pairwise Ordered := by
  have h0 : Fenced { row := some row, now := now } ∧ Exclusive { row := some row, now := now } :=
    ⟨⟨initial_inv _ now, by simp, by simp, by simp⟩, by simp, by simp⟩
  have hstep : ∀ s a v, Fenced s ∧ Exclusive s → step s a = some v → Fenced v ∧ Exclusive v :=
    fun s a v h hv => ⟨h.1.step s a v (h.2.underLock hv) hv, h.2.step s a v hv⟩
  exact (run_invariant hstep h0 hs).1.ordered

/-- Pod b's FOR UPDATE select ran before the row existed, so its upsert later updates the
expired row without waiting for pod a's fenced write, which then commits. -/
def staleFirstAcquire : List Action :=
  [.begin 0 (.tryAcquire "b" 30000 .begun), .selectForUpdate 0,
    .begin 1 (.tryAcquire "a" 30000 .begun), .selectForUpdate 1, .upsert 1, .commit 1,
    .begin 2 (.write "a" (some 1) false), .fence 2, .advance 30000, .upsert 0, .commit 0,
    .commit 2]

theorem stale_first_acquire_unfenced :
    ∃ s, run step { row := none } staleFirstAcquire = some s ∧
      s.log = [.granted 1, .granted 2, .wrote "a" 1] ∧ ¬ s.log.Pairwise Ordered := by
  refine ⟨_, rfl, by decide, fun h => ?_⟩
  have hlog : ([.granted 1, .granted 2, .wrote "a" 1] : List Event).Pairwise Ordered := h
  simp [Ordered] at hlog

end ClaudeFleet.PgLease
