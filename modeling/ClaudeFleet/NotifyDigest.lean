import ClaudeFleet.Notify

/-! Held notifications and their digests. A row is counted when its digest is stored; the invariant
follows the rows of a tick from the moment it finds no quiet period to the digest. -/
namespace ClaudeFleet.Notify
open Transition

/-- Where the tick has found no quiet period and reads the marker, the marker is set, no later than
any row still held. -/
def Phase.marked (st : Store) : Phase → Prop
  | .getQuietSince f => f.quiet = false →
      ∀ r ∈ st.notifications, r.heldQuiet = true → r.digested = false →
        ∃ since ∈ st.quietSince, since ≤ r.ts
  | _ => True

/-- The tick has not cleared the marker, or there is nothing to digest. -/
def Phase.crashSafe (st : Store) : Phase → Prop
  | .readHeld _ _ => ∀ r ∈ st.notifications, r.heldQuiet = true → r.digested = true
  | .markDigested _ _ => False
  | .sendDigest _ _ => False
  | _ => True

/-- The condition on a step: the tick that finds no quiet period finds the marker of the one that
ended, and no crash falls between the clearing of the marker and the digest. -/
def Covered (s : State) : Action → Prop
  | .tick _ => ∀ p ∈ s.tick, p.marked s.store
  | .crash => ∀ p ∈ s.tick, p.crashSafe s.store
  | _ => True

/-- A row that a digest may still count. -/
def Pending (rows : List Row) (id : ℕ) (digested : Bool) : Prop :=
  ∃ r ∈ rows, r.id = id ∧ r.heldQuiet = true ∧ r.digested = digested

/-- What holds of the tick under way. -/
def PhaseOk (s : State) : Phase → Prop
  | .getQuietSince f => ∀ id ∈ f.due, ∃ digested, Pending s.store.notifications id digested
  | .clearQuietSince f since => f.quiet = false ∧ ∀ id ∈ f.due, s.counts id = 1 ∨
      ∃ r ∈ s.store.notifications, r.id = id ∧ r.heldQuiet = true ∧ r.digested = false ∧
        since ≤ r.ts
  | .readHeld f since => f.quiet = false ∧ ∀ id ∈ f.due, s.counts id = 1 ∨
      ∃ r ∈ s.store.notifications, r.id = id ∧ r.heldQuiet = true ∧ r.digested = false ∧
        since ≤ r.ts
  | .markDigested f held => f.quiet = false ∧
      (∀ r ∈ held, Pending s.store.notifications r.id false) ∧
      ∀ id ∈ f.due, s.counts id = 1 ∨ id ∈ held.map Row.id
  | .sendDigest f held => f.quiet = false ∧
      (∀ r ∈ held, Pending s.store.notifications r.id true ∧ s.counts r.id = 0) ∧
      ∀ id ∈ f.due, s.counts id = 1 ∨ id ∈ held.map Row.id
  | _ => True

/-- The rows whose digest the tick under way is about to store. -/
def State.sending (s : State) : List ℕ :=
  match s.tick with
  | some (.sendDigest _ held) => held.map Row.id
  | _ => []

structure Sound (s : State) : Prop where
  ids : (s.store.notifications.map Row.id).Nodup
  fresh : ∀ r ∈ s.store.notifications, r.id < s.store.nextId
  counted : ∀ id, 0 < s.counts id → Pending s.store.notifications id true
  once : ∀ id, s.counts id ≤ 1
  marked : ∀ r ∈ s.store.notifications, r.digested = true → s.counts r.id = 1 ∨ r.id ∈ s.sending
  phase : ∀ p, s.tick = some p → PhaseOk s p
  quiet : ∀ d ∈ s.digests, d.found.quiet = false
  finished : ∀ f ∈ s.finished, f.quiet = false ∧ ∀ id ∈ f.due, s.counts id = 1

theorem Sound.start : Sound {} where
  ids := List.nodup_nil
  fresh := by simp
  counted := by simp [State.counts]
  once := by simp [State.counts]
  marked := by simp
  phase := by simp
  quiet := by simp
  finished := by simp

/-- Rows stay as far as the digests are concerned; a new one is not digested. -/
structure Extends (a b : List Row) : Prop where
  keep : ∀ r ∈ a, ∃ r' ∈ b, r'.id = r.id ∧ r'.ts = r.ts ∧ r'.heldQuiet = r.heldQuiet ∧
    r'.digested = r.digested
  old : ∀ r' ∈ b, r'.digested = true → ∃ r ∈ a, r.id = r'.id ∧ r.digested = true

theorem Extends.refl (a : List Row) : Extends a a where
  keep := fun r hr => ⟨r, hr, rfl, rfl, rfl, rfl⟩
  old := fun r hr h => ⟨r, hr, rfl, h⟩

theorem Extends.pending {a b : List Row} (h : Extends a b) {id : ℕ} {digested : Bool}
    (hp : Pending a id digested) : Pending b id digested := by
  obtain ⟨r, hr, hid, hheld, hdig⟩ := hp
  obtain ⟨r', hr', hid', -, hheld', hdig'⟩ := h.keep r hr
  exact ⟨r', hr', hid'.trans hid, hheld'.trans hheld, hdig'.trans hdig⟩

theorem extends_clearByKey (st : Store) (key : String) (now : ℤ) :
    Extends st.notifications (st.clearByKey key now).notifications where
  keep := by
    intro r hr
    refine ⟨_, List.mem_map_of_mem hr, ?_⟩
    split
    · exact ⟨rfl, rfl, rfl, rfl⟩
    · exact ⟨rfl, rfl, rfl, rfl⟩
  old := by
    intro r' hr' hdig
    obtain ⟨r, hr, rfl⟩ := List.mem_map.mp hr'
    refine ⟨r, hr, ?_⟩
    split at hdig
    · next h =>
      rw [if_pos h]
      exact ⟨rfl, hdig⟩
    · next h =>
      rw [if_neg h]
      exact ⟨rfl, hdig⟩

theorem extends_insert (st : Store) (input : Input) (ts : ℤ) (held : Option HeldReason) :
    Extends st.notifications (st.insert input ts held).notifications where
  keep := fun r hr => ⟨r, List.mem_append_left _ hr, rfl, rfl, rfl, rfl⟩
  old := by
    intro r' hr' hdig
    rcases List.mem_append.mp hr' with hr' | hr'
    · exact ⟨r', hr', rfl, hdig⟩
    · rw [List.mem_singleton.mp hr'] at hdig
      cases hdig

theorem ids_insert {st : Store} (hids : (st.notifications.map Row.id).Nodup)
    (hfresh : ∀ r ∈ st.notifications, r.id < st.nextId) (input : Input) (ts : ℤ)
    (held : Option HeldReason) :
    ((st.insert input ts held).notifications.map Row.id).Nodup ∧
    ∀ r ∈ (st.insert input ts held).notifications, r.id < (st.insert input ts held).nextId := by
  constructor
  · rw [Store.insert, List.map_append, List.nodup_append]
    refine ⟨hids, List.nodup_singleton _, ?_⟩
    intro a ha b hb
    obtain ⟨r, hr, rfl⟩ := List.mem_map.mp ha
    rw [List.map_singleton, List.mem_singleton] at hb
    exact hb ▸ (hfresh r hr).ne
  · intro r hr
    rcases List.mem_append.mp hr with hr | hr
    · exact (hfresh r hr).trans (Nat.lt_succ_self _)
    · rw [List.mem_singleton.mp hr]
      exact Nat.lt_succ_self _

theorem PhaseOk.extends {s t : State} (h : Extends s.store.notifications t.store.notifications)
    (hd : t.digests = s.digests) {p : Phase} (hp : PhaseOk s p) : PhaseOk t p := by
  have hcounts : ∀ id, t.counts id = s.counts id := fun id => by rw [State.counts, hd]; rfl
  cases p with
  | getQuietSince f =>
    intro id hid
    obtain ⟨digested, hpend⟩ := hp id hid
    exact ⟨digested, h.pending hpend⟩
  | clearQuietSince f since =>
    refine ⟨hp.1, fun id hid => ?_⟩
    rw [hcounts]
    refine (hp.2 id hid).imp_right ?_
    rintro ⟨r, hr, hrid, hheld, hdig, hle⟩
    obtain ⟨r', hr', hid', hts', hheld', hdig'⟩ := h.keep r hr
    exact ⟨r', hr', hid'.trans hrid, hheld'.trans hheld, hdig'.trans hdig, hts' ▸ hle⟩
  | readHeld f since =>
    refine ⟨hp.1, fun id hid => ?_⟩
    rw [hcounts]
    refine (hp.2 id hid).imp_right ?_
    rintro ⟨r, hr, hrid, hheld, hdig, hle⟩
    obtain ⟨r', hr', hid', hts', hheld', hdig'⟩ := h.keep r hr
    exact ⟨r', hr', hid'.trans hrid, hheld'.trans hheld, hdig'.trans hdig, hts' ▸ hle⟩
  | markDigested f held =>
    refine ⟨hp.1, fun r hr => h.pending (hp.2.1 r hr), fun id hid => ?_⟩
    rw [hcounts]
    exact hp.2.2 id hid
  | sendDigest f held =>
    refine ⟨hp.1, fun r hr => ?_, fun id hid => ?_⟩
    · rw [hcounts]
      exact ⟨h.pending (hp.2.1 r hr).1, (hp.2.1 r hr).2⟩
    · rw [hcounts]
      exact hp.2.2 id hid
  | _ => trivial

/-- A step that leaves the tick and the digests alone. -/
theorem Sound.extends {s t : State} (hs : Sound s)
    (h : Extends s.store.notifications t.store.notifications)
    (hids : (t.store.notifications.map Row.id).Nodup)
    (hfresh : ∀ r ∈ t.store.notifications, r.id < t.store.nextId)
    (htick : t.tick = s.tick) (hd : t.digests = s.digests) (hf : t.finished = s.finished) :
    Sound t := by
  have hcounts : ∀ id, t.counts id = s.counts id := fun id => by rw [State.counts, hd]; rfl
  refine ⟨hids, hfresh, ?_, ?_, ?_, ?_, ?_, ?_⟩
  · intro id hid
    rw [hcounts] at hid
    exact h.pending (hs.counted id hid)
  · intro id
    rw [hcounts]
    exact hs.once id
  · intro r' hr' hdig
    obtain ⟨r, hr, hid, hdig'⟩ := h.old r' hr' hdig
    have hsend : t.sending = s.sending := by rw [State.sending, htick]; rfl
    rw [hcounts, hsend, ← hid]
    exact hs.marked r hr hdig'
  · intro p hp
    rw [htick] at hp
    exact (hs.phase p hp).extends h hd
  · rw [hd]
    exact hs.quiet
  · rw [hf]
    simp only [hcounts]
    exact hs.finished

/-- A step of the tick that changes no row. -/
theorem Sound.goto {s t : State} (hs : Sound s)
    (hrows : t.store.notifications = s.store.notifications)
    (hnext : t.store.nextId = s.store.nextId) (hd : t.digests = s.digests)
    (hsend : s.sending = []) (hphase : ∀ p, t.tick = some p → PhaseOk t p)
    (hfin : ∀ f ∈ t.finished, f.quiet = false ∧ ∀ id ∈ f.due, s.counts id = 1) : Sound t := by
  have hcounts : ∀ id, t.counts id = s.counts id := fun id => by rw [State.counts, hd]; rfl
  refine ⟨hrows ▸ hs.ids, ?_, ?_, ?_, ?_, hphase, hd ▸ hs.quiet, ?_⟩
  · rw [hrows, hnext]
    exact hs.fresh
  · intro id hid
    rw [hcounts] at hid
    rw [hrows]
    exact hs.counted id hid
  · intro id
    rw [hcounts]
    exact hs.once id
  · intro r hr hdig
    rw [hrows] at hr
    have hm := hs.marked r hr hdig
    rw [hsend] at hm
    rw [hcounts]
    exact .inl (hm.resolve_right List.not_mem_nil)
  · intro f hf
    simp only [hcounts]
    exact hfin f hf

/-- A tick that ends without a digest. -/
theorem Sound.finish {s : State} (hs : Sound s) (hsend : s.sending = []) {f : Found}
    (hf : f.quiet = false → ∀ id ∈ f.due, s.counts id = 1) : Sound (s.finish f) := by
  refine hs.goto rfl rfl rfl hsend (fun p hp => by cases hp) ?_
  intro g hg
  unfold State.finish at hg
  cases hq : f.quiet with
  | true =>
    rw [hq, if_pos rfl] at hg
    exact hs.finished g hg
  | false =>
    rw [hq] at hg
    rcases List.mem_cons.mp hg with rfl | hg
    · exact ⟨hq, hf hq⟩
    · exact hs.finished g hg

theorem sending_of_tick {s : State} {p : Phase} (h : s.tick = some p)
    (hp : ∀ f held, p ≠ .sendDigest f held) : s.sending = [] := by
  unfold State.sending
  rw [h]
  cases p with
  | sendDigest f held => exact absurd rfl (hp f held)
  | _ => rfl

/-- Outside the sending of a digest, a digested row is counted. -/
theorem Sound.counts_of_digested {s : State} (hs : Sound s) (hsend : s.sending = []) {id : ℕ}
    (hp : Pending s.store.notifications id true) : s.counts id = 1 := by
  obtain ⟨r, hr, rfl, -, hdig⟩ := hp
  have hm := hs.marked r hr hdig
  rw [hsend] at hm
  exact hm.resolve_right List.not_mem_nil

theorem mem_heldQuietSince {st : Store} {since : ℤ} {r : Row} :
    r ∈ st.heldQuietSince since ↔ r ∈ st.notifications ∧ r.heldQuiet = true ∧
      r.digested = false ∧ since ≤ r.ts := by
  simp [Store.heldQuietSince]

section Tick
variable {windowAt : Downtime → ℤ → Option ℤ} {s : State} {now' : ℤ}

theorem Sound.getQuietSince (hs : Sound s) {f : Found}
    (ht : s.tick = some (.getQuietSince f)) (hcov : Covered s (.tick now')) :
    Sound (tickOnce windowAt s now' (.getQuietSince f)) := by
  have hsend : s.sending = [] := sending_of_tick ht (by simp)
  have hdue := hs.phase _ ht
  rw [tickOnce]
  split
  · exact hs.goto rfl rfl rfl hsend (fun p hp => by cases hp; trivial) hs.finished
  · next since hq hsince =>
    refine hs.goto rfl rfl rfl hsend (fun p hp => ?_) hs.finished
    cases hp
    refine ⟨hq, fun id hid => ?_⟩
    obtain ⟨digested, hpend⟩ := hdue id hid
    cases digested with
    | true => exact .inl (hs.counts_of_digested hsend hpend)
    | false =>
      obtain ⟨r, hr, hrid, hheld, hdig⟩ := hpend
      obtain ⟨since', hsince', hle⟩ := hcov _ ht hq r hr hheld hdig
      cases hsince.symm.trans hsince'
      exact .inr ⟨r, hr, hrid, hheld, hdig, hle⟩
  · next hopen hclose =>
    refine hs.finish hsend fun hq id hid => ?_
    obtain ⟨digested, hpend⟩ := hdue id hid
    cases digested with
    | true => exact hs.counts_of_digested hsend hpend
    | false =>
      -- a row still pending would have found the marker set
      obtain ⟨r, hr, hrid, hheld, hdig⟩ := hpend
      obtain ⟨since, hsince, -⟩ := hcov _ ht hq r hr hheld hdig
      exact absurd hsince (hclose since hq)

theorem Sound.readHeld (hs : Sound s) {f : Found} {since : ℤ}
    (ht : s.tick = some (.readHeld f since)) :
    Sound (tickOnce windowAt s now' (.readHeld f since)) := by
  have hsend : s.sending = [] := sending_of_tick ht (by simp)
  obtain ⟨hq, hdue⟩ := hs.phase _ ht
  rw [tickOnce]
  split
  · next hnil =>
    refine hs.finish hsend fun _ id hid => (hdue id hid).resolve_right ?_
    rintro ⟨r, hr, -, hrest⟩
    have hmem := mem_heldQuietSince.mpr ⟨hr, hrest⟩
    rw [hnil] at hmem
    cases hmem
  · refine hs.goto rfl rfl rfl hsend (fun p hp => ?_) hs.finished
    cases hp
    refine ⟨hq, fun r hr => ?_, fun id hid => ?_⟩
    · obtain ⟨hmem, hheld, hdig, -⟩ := mem_heldQuietSince.mp hr
      exact ⟨r, hmem, rfl, hheld, hdig⟩
    · refine (hdue id hid).imp_right ?_
      rintro ⟨r, hr, rfl, hrest⟩
      exact List.mem_map_of_mem (mem_heldQuietSince.mpr ⟨hr, hrest⟩)

theorem counts_eq_zero {s : State} (hs : Sound s) {id : ℕ}
    (hp : Pending s.store.notifications id false) : s.counts id = 0 := by
  by_contra hne
  obtain ⟨r, hr, hid, -, hdig⟩ := hp
  obtain ⟨r', hr', hid', -, hdig'⟩ := hs.counted id (Nat.pos_of_ne_zero hne)
  have hsame : r = r' := List.inj_on_of_nodup_map hs.ids hr hr' (hid.trans hid'.symm)
  rw [hsame, hdig'] at hdig
  cases hdig

theorem Sound.markDigested (hs : Sound s) {f : Found} {held : List Row}
    (ht : s.tick = some (.markDigested f held)) :
    Sound (tickOnce windowAt s now' (.markDigested f held)) := by
  have hsend : s.sending = [] := sending_of_tick ht (by simp)
  obtain ⟨hq, hheld, hdue⟩ := hs.phase _ ht
  have hmap : ((s.store.markDigested (held.map Row.id)).notifications.map Row.id) =
      s.store.notifications.map Row.id := by
    rw [Store.markDigested, List.map_map]
    refine List.map_congr_left fun r _ => ?_
    dsimp only [Function.comp_apply]
    split <;> rfl
  have hup : ∀ id digested, Pending s.store.notifications id digested →
      (id ∈ held.map Row.id ∨ digested = true) →
      Pending (s.store.markDigested (held.map Row.id)).notifications id true := by
    rintro id digested ⟨r, hr, rfl, hrheld, hdig⟩ hor
    refine ⟨_, List.mem_map_of_mem hr, ?_⟩
    by_cases hmem : r.id ∈ held.map Row.id
    · rw [if_pos hmem]
      exact ⟨rfl, hrheld, rfl⟩
    · rw [if_neg hmem]
      exact ⟨rfl, hrheld, hdig.trans (hor.resolve_left hmem)⟩
  refine ⟨hmap ▸ hs.ids, ?_, ?_, hs.once, ?_, ?_, hs.quiet, hs.finished⟩
  · intro r hr
    obtain ⟨r₀, hr₀, rfl⟩ := List.mem_map.mp hr
    have := hs.fresh r₀ hr₀
    split
    · exact this
    · exact this
  · intro id hid
    exact hup id true (hs.counted id hid) (.inr rfl)
  · intro r hr hdig
    obtain ⟨r₀, hr₀, rfl⟩ := List.mem_map.mp hr
    by_cases hmem : r₀.id ∈ held.map Row.id
    · rw [if_pos hmem]
      exact .inr hmem
    · rw [if_neg hmem] at hdig ⊢
      have hm := hs.marked r₀ hr₀ hdig
      rw [hsend] at hm
      exact .inl (hm.resolve_right List.not_mem_nil)
  · intro p hp
    cases hp
    refine ⟨hq, fun r hr => ⟨?_, counts_eq_zero hs (hheld r hr)⟩, hdue⟩
    exact hup r.id false (hheld r hr) (.inl (List.mem_map_of_mem hr))

theorem Sound.sendDigest (hs : Sound s) {f : Found} {held : List Row}
    (ht : s.tick = some (.sendDigest f held)) :
    Sound (tickOnce windowAt s now' (.sendDigest f held)) := by
  obtain ⟨hq, hheld, hdue⟩ := hs.phase _ ht
  set t := tickOnce windowAt s now' (.sendDigest f held) with ht'
  have hext : Extends s.store.notifications t.store.notifications := extends_insert ..
  have hcounts : ∀ id, t.counts id = s.counts id + if id ∈ held.map Row.id then 1 else 0 := by
    intro id
    rw [ht', State.counts]
    simp only [tickOnce, State.finish]
    rw [List.countP_cons]
    simp [State.counts]
  have hsame : ∀ id, id ∉ held.map Row.id → t.counts id = s.counts id := by
    intro id hid
    rw [hcounts, if_neg hid, Nat.add_zero]
  have hnew : ∀ id, id ∈ held.map Row.id → t.counts id = 1 := by
    intro id hid
    obtain ⟨r, hr, rfl⟩ := List.mem_map.mp hid
    rw [hcounts, if_pos hid, (hheld r hr).2]
  have hone : ∀ id, s.counts id = 1 → t.counts id = 1 := by
    intro id hid
    by_cases hmem : id ∈ held.map Row.id
    · exact hnew id hmem
    · rw [hsame id hmem, hid]
  obtain ⟨hids, hfresh⟩ := ids_insert hs.ids hs.fresh (digestInput held) now'
    (resolve windowAt (digestInput held).req s.store.settings now')
  refine ⟨hids, hfresh, ?_, ?_, ?_, fun p hp => (by cases hp), ?_, ?_⟩
  · intro id hid
    by_cases hmem : id ∈ held.map Row.id
    · obtain ⟨r, hr, rfl⟩ := List.mem_map.mp hmem
      exact hext.pending (hheld r hr).1
    · rw [hsame id hmem] at hid
      exact hext.pending (hs.counted id hid)
  · intro id
    by_cases hmem : id ∈ held.map Row.id
    · rw [hnew id hmem]
    · rw [hsame id hmem]
      exact hs.once id
  · intro r hr hdig
    obtain ⟨r₀, hr₀, hid, hdig₀⟩ := hext.old r hr hdig
    rw [← hid]
    rcases hs.marked r₀ hr₀ hdig₀ with h | h
    · exact .inl (hone _ h)
    · have hsend : s.sending = held.map Row.id := by rw [State.sending, ht]
      rw [hsend] at h
      exact .inl (hnew _ h)
  · intro d hd
    rcases List.mem_cons.mp hd with rfl | hd
    · exact hq
    · exact hs.quiet d hd
  · intro g hg
    rw [ht', tickOnce, State.finish, hq] at hg
    rcases List.mem_cons.mp hg with rfl | hg
    · exact ⟨hq, fun id hid => (hdue id hid).elim (hone id) (hnew id)⟩
    · exact ⟨(hs.finished g hg).1, fun id hid => hone id ((hs.finished g hg).2 id hid)⟩

theorem Sound.tick (hs : Sound s) {p : Phase} (ht : s.tick = some p)
    (hcov : Covered s (.tick now')) : Sound (tickOnce windowAt s now' p) := by
  cases p with
  | getPause now =>
    have hsend : s.sending = [] := sending_of_tick ht (by simp)
    rw [tickOnce]
    split
    · exact hs.goto rfl rfl rfl hsend (fun p hp => by cases hp; trivial) hs.finished
    · split
      · exact hs.goto rfl rfl rfl hsend (fun p hp => by cases hp; trivial) hs.finished
      · exact hs.goto rfl rfl rfl hsend (fun p hp => by cases hp; trivial) hs.finished
  | clearPause now =>
    exact hs.goto rfl rfl rfl (sending_of_tick ht (by simp)) (fun p hp => by cases hp; trivial)
      hs.finished
  | downtimes now live =>
    refine hs.goto rfl rfl rfl (sending_of_tick ht (by simp)) (fun p hp => ?_) hs.finished
    cases hp
    intro id hid
    obtain ⟨r, hr, rfl⟩ := List.mem_map.mp hid
    obtain ⟨hr, hheld⟩ := List.mem_filter.mp hr
    exact ⟨r.digested, r, hr, rfl, hheld, rfl⟩
  | getQuietSince f => exact hs.getQuietSince ht hcov
  | setQuietSince since =>
    exact hs.goto rfl rfl rfl (sending_of_tick ht (by simp)) (fun p hp => by cases hp) hs.finished
  | clearQuietSince f since =>
    refine hs.goto rfl rfl rfl (sending_of_tick ht (by simp)) (fun p hp => ?_) hs.finished
    cases hp
    exact hs.phase _ ht
  | readHeld f since => exact hs.readHeld ht
  | markDigested f held => exact hs.markDigested ht
  | sendDigest f held => exact hs.sendDigest ht

theorem Sound.insert (hs : Sound s) {t : State} {input : Input} {ts : ℤ}
    {held : Option HeldReason} (hstore : t.store = s.store.insert input ts held)
    (htick : t.tick = s.tick) (hd : t.digests = s.digests) (hf : t.finished = s.finished) :
    Sound t := by
  obtain ⟨hids, hfresh⟩ := ids_insert hs.ids hs.fresh input ts held
  rw [← hstore] at hids hfresh
  exact hs.extends (hstore ▸ extends_insert ..) hids hfresh htick hd hf

theorem Sound.step (hs : Sound s) {t : State} {a : Action} (hcov : Covered s a)
    (h : step windowAt s a = some t) : Sound t := by
  cases a with
  | configure settings =>
    cases h
    exact hs.extends (.refl _) hs.ids hs.fresh rfl rfl rfl
  | clearByKey key now =>
    cases h
    refine hs.extends (extends_clearByKey ..) ?_ ?_ rfl rfl rfl
    · rw [Store.clearByKey, List.map_map]
      convert hs.ids using 2
      funext r
      dsimp only [Function.comp_apply]
      split <;> rfl
    · intro r hr
      obtain ⟨r₀, hr₀, rfl⟩ := List.mem_map.mp hr
      have := hs.fresh r₀ hr₀
      split
      · exact this
      · exact this
  | request input now =>
    cases h
    exact hs.extends (.refl _) hs.ids hs.fresh rfl rfl rfl
  | read n part =>
    simp only [Notify.step] at h
    split at h
    · cases h
    · cases h
      exact hs.extends (.refl _) hs.ids hs.fresh rfl rfl rfl
  | insert n =>
    simp only [Notify.step] at h
    split at h
    · cases h
    · obtain ⟨settings, -, rfl⟩ := Option.map_eq_some_iff.mp h
      exact hs.insert rfl rfl rfl rfl
  | startTick now =>
    simp only [Notify.step] at h
    split at h
    · next hidle =>
      cases h
      have hsend : s.sending = [] := by rw [State.sending, hidle]
      exact hs.goto rfl rfl rfl hsend (fun p hp => by cases hp; trivial) hs.finished
    · cases h
  | tick now =>
    obtain ⟨p, hp, rfl⟩ := Option.map_eq_some_iff.mp h
    exact hs.tick hp hcov
  | crash =>
    cases h
    -- the tick that crashes is not sending a digest
    have hsend : s.sending = [] := by
      cases ht : s.tick with
      | none => rw [State.sending, ht]
      | some p =>
        refine sending_of_tick ht ?_
        rintro f held rfl
        exact hcov _ ht
    exact hs.goto rfl rfl rfl hsend (fun p hp => by cases hp) hs.finished

end Tick

/-- Whatever requests, ticks, settings changes and crashes interleave, as long as every tick that
finds no quiet period finds the marker over the rows still held, and no crash falls inside a digest:
a tick that finds no quiet period and ends leaves every row that was held then counted in exactly
one digest; no row is counted twice; and a digest is sent only by a tick that found no quiet
period. -/
theorem held_digested_once (windowAt : Downtime → ℤ → Option ℤ) {as : List Action} {s : State}
    (hrun : run (step windowAt) {} as = some s) (hcov : Along (step windowAt) Covered {} as) :
    (∀ f ∈ s.finished, f.quiet = false ∧ ∀ id ∈ f.due, s.counts id = 1) ∧
    (∀ id, s.counts id ≤ 1) ∧
    (∀ d ∈ s.digests, d.found.quiet = false) ∧
    ∀ id, 0 < s.counts id → ∃ r ∈ s.store.notifications, r.id = id ∧ r.heldQuiet = true := by
  have hs : Sound s := run_invariant_along (fun _ _ _ hs hc hstep => hs.step hc hstep) Sound.start
    hrun hcov
  refine ⟨hs.finished, hs.once, hs.quiet, fun id hid => ?_⟩
  obtain ⟨r, hr, hrid, hheld, -⟩ := hs.counted id hid
  exact ⟨r, hr, hrid, hheld⟩

def paused : Settings := { pause := some ⟨none, false, 10⟩ }

def todoInput : Input :=
  { req := ⟨.todo, .normal, ⟨.user, none⟩, none, []⟩, title := "A todo", body := none }

/-- A pause with one todo held, then resumed; a tick after each change of the pause. -/
def pausedRun : List Action :=
  [.configure paused, .startTick 10, .tick 10, .tick 10, .tick 10, .tick 10,
    .request todoInput 11, .read 0 .rules, .read 0 .defaultLevel, .read 0 .pause,
    .read 0 .downtimes, .insert 0, .configure {}, .startTick 20, .tick 20, .tick 20, .tick 20,
    .tick 20, .tick 20, .tick 20, .tick 20]

instance decidableMarked (st : Store) : (p : Phase) → Decidable (p.marked st)
  | .getQuietSince f => inferInstanceAs (Decidable (f.quiet = false →
      ∀ r ∈ st.notifications, r.heldQuiet = true → r.digested = false →
        ∃ since ∈ st.quietSince, since ≤ r.ts))
  | .getPause _ => isTrue trivial
  | .clearPause _ => isTrue trivial
  | .downtimes _ _ => isTrue trivial
  | .setQuietSince _ => isTrue trivial
  | .clearQuietSince _ _ => isTrue trivial
  | .readHeld _ _ => isTrue trivial
  | .markDigested _ _ => isTrue trivial
  | .sendDigest _ _ => isTrue trivial

instance decidableCrashSafe (st : Store) : (p : Phase) → Decidable (p.crashSafe st)
  | .readHeld _ _ => inferInstanceAs (Decidable
      (∀ r ∈ st.notifications, r.heldQuiet = true → r.digested = true))
  | .getPause _ => isTrue trivial
  | .clearPause _ => isTrue trivial
  | .downtimes _ _ => isTrue trivial
  | .getQuietSince _ => isTrue trivial
  | .setQuietSince _ => isTrue trivial
  | .clearQuietSince _ _ => isTrue trivial
  | .markDigested _ _ => isFalse id
  | .sendDigest _ _ => isFalse id

instance decidableCovered (s : State) : (a : Action) → Decidable (Covered s a)
  | .tick _ => inferInstanceAs (Decidable (∀ p ∈ s.tick, p.marked s.store))
  | .crash => inferInstanceAs (Decidable (∀ p ∈ s.tick, p.crashSafe s.store))
  | .configure _ => isTrue trivial
  | .clearByKey _ _ => isTrue trivial
  | .request _ _ => isTrue trivial
  | .read _ _ => isTrue trivial
  | .insert _ => isTrue trivial
  | .startTick _ => isTrue trivial

theorem held_digested_once_resumed :
    ∃ s, run (step fun _ _ => none) {} pausedRun = some s ∧
      Along (step fun _ _ => none) Covered {} pausedRun ∧
      s.finished.map Found.due = [[0]] ∧ s.counts 0 = 1 := by
  obtain ⟨s, hs⟩ : ∃ s, run (step fun _ _ => none) {} pausedRun = some s := ⟨_, rfl⟩
  have hcov : Along (step fun _ _ => none) Covered {} pausedRun := by decide +kernel
  have hdue : s.finished.map Found.due = [[0]] := by
    cases hs
    rfl
  obtain ⟨hfin, -⟩ := held_digested_once (fun _ _ => none) hs hcov
  obtain ⟨f, hf, hfdue⟩ := List.map_eq_singleton_iff.mp hdue
  refine ⟨s, hs, hcov, hdue, (hfin f (hf ▸ List.mem_singleton_self f)).2 0 ?_⟩
  rw [hfdue]
  exact List.mem_singleton_self 0

/-- A request that reads the pause before it is resumed and stores its row after the tick. -/
def lateRun : List Action :=
  [.configure paused, .startTick 10, .tick 10, .tick 10, .tick 10, .tick 10,
    .request todoInput 11, .read 0 .rules, .read 0 .defaultLevel, .read 0 .pause,
    .read 0 .downtimes, .configure {}, .startTick 20, .tick 20, .tick 20, .tick 20, .tick 20,
    .tick 20, .insert 0, .startTick 30, .tick 30, .tick 30, .tick 30]

/-- A crash right after the tick has cleared the marker. -/
def crashedRun : List Action :=
  [.configure paused, .startTick 10, .tick 10, .tick 10, .tick 10, .tick 10,
    .request todoInput 11, .read 0 .rules, .read 0 .defaultLevel, .read 0 .pause,
    .read 0 .downtimes, .insert 0, .configure {}, .startTick 20, .tick 20, .tick 20, .tick 20,
    .tick 20, .crash, .startTick 30, .tick 30, .tick 30, .tick 30]

/-- A run that ends with a tick that found no quiet period after the first row was stored as held,
and in which no digest counts the row. -/
def LeavesHeld (as : List Action) : Prop :=
  ∃ s, run (step fun _ _ => none) {} as = some s ∧
    (∃ r ∈ s.store.notifications, r.id = 0 ∧ r.heldReason = some .pause) ∧
    (∃ f ∈ s.finished, f.quiet = false ∧ 0 ∈ f.due) ∧ s.counts 0 = 0

theorem held_row_never_digested : LeavesHeld lateRun ∧ LeavesHeld crashedRun := by
  constructor
  · exact ⟨_, rfl, ⟨_, List.mem_cons_self, rfl, rfl⟩, ⟨_, List.mem_cons_self, rfl,
      List.mem_cons_self⟩, rfl⟩
  · exact ⟨_, rfl, ⟨_, List.mem_cons_self, rfl, rfl⟩, ⟨_, List.mem_cons_self, rfl,
      List.mem_cons_self⟩, rfl⟩

end ClaudeFleet.Notify
