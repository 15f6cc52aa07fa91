import ClaudeFleet.HubStep

/-! Who may close a session: the owner map against the broker's incarnations of an id. -/
namespace ClaudeFleet.AttachHub

open Transition

/-- The identity that made the live incarnation of a session and was told so. -/
def Hub.liveCreator (h : Hub) (id : String) : Option String :=
  (h.broker.sessions id).bind fun i =>
    if i.alive && h.broker.acked i.serial then h.broker.creator i.serial else none

theorem liveCreator_eq_some {h : Hub} {id k : String} :
    h.liveCreator id = some k ↔ ∃ i, h.broker.sessions id = some i ∧ i.alive = true ∧
      h.broker.acked i.serial = true ∧ h.broker.creator i.serial = some k := by
  simp only [Hub.liveCreator, Option.bind_eq_some_iff, Option.ite_none_right_eq_some,
    Bool.and_eq_true]
  exact ⟨fun ⟨i, hi, ⟨ha, hk⟩, hc⟩ => ⟨i, hi, ha, hk, hc⟩,
    fun ⟨i, hi, ha, hk, hc⟩ => ⟨i, hi, ⟨ha, hk⟩, hc⟩⟩

/-- The CREATE handler of viewer `v` waits with the broker's answer: incarnation `n` is made. -/
def Hub.Awaits (h : Hub) (v : ℕ) (id : String) (n : ℕ) : Prop :=
  (h.viewers v).pc = .creating id (some (some n))

structure Owned (h : Hub) : Prop where
  serial : ∀ s i, h.broker.sessions s = some i → i.serial < h.broker.nextSerial
  distinct : ∀ s i r j, h.broker.sessions s = some i → h.broker.sessions r = some j →
    i.serial = j.serial → s = r
  unborn : ∀ n, h.broker.nextSerial ≤ n → h.broker.acked n = false
  awaits : ∀ v id n, h.Awaits v id n →
    n < h.broker.nextSerial ∧ h.broker.creator n = some (h.viewers v).key ∧
      ∀ s i, h.broker.sessions s = some i → i.serial = n → s = id
  answered : ∀ s i k, h.broker.sessions s = some i → i.alive = true →
    h.broker.creator i.serial = some k → h.broker.acked i.serial = true ∨
      ∃ v, h.Awaits v s i.serial ∧ (h.viewers v).key = k
  owner : ∀ s k, h.liveCreator s = some k → h.owners s = some k
  marks : ∀ j p, h.prunes j = some p → p.mark ≤ h.seq
  spared : ∀ s k, h.liveCreator s = some k → ∃ q, h.ownerSeq s = some q ∧ q ≤ h.seq ∧
    ∀ j mark live, h.prunes j = some ⟨mark, some live⟩ → q ≤ mark → live s = true

theorem initial_owned (key : ℕ → String) : Owned (Hub.initial key) where
  serial s i hi := by simp [Hub.initial] at hi
  distinct s i r j hi := by simp [Hub.initial] at hi
  unborn n _ := rfl
  awaits v id n ha := by simp [Hub.Awaits, Hub.initial] at ha
  answered s i k hi := by simp [Hub.initial] at hi
  owner s k hk := by simp [Hub.liveCreator, Hub.initial] at hk
  marks j p hp := by simp [Hub.initial] at hp
  spared s k hk := by simp [Hub.liveCreator, Hub.initial] at hk

/-- From `h` to `g` owners, broker and pruning passes stay, and no broker answer to a CREATE
arrives or is taken. -/
structure SameLedger (h g : Hub) : Prop where
  ledger : g.ledger = h.ledger
  key : ∀ v, (g.viewers v).key = (h.viewers v).key
  awaits : ∀ v id n, g.Awaits v id n ↔ h.Awaits v id n

theorem SameLedger.trans {h g k : Hub} (hg : SameLedger h g) (gk : SameLedger g k) :
    SameLedger h k where
  ledger := gk.ledger.trans hg.ledger
  key v := (gk.key v).trans (hg.key v)
  awaits v id n := (gk.awaits v id n).trans (hg.awaits v id n)

theorem Owned.same {h g : Hub} (ho : Owned h) (hg : SameLedger h g) : Owned g := by
  have howners : g.owners = h.owners := congrArg Ledger.owners hg.ledger
  have hseqs : g.ownerSeq = h.ownerSeq := congrArg Ledger.ownerSeq hg.ledger
  have hseq : g.seq = h.seq := congrArg Ledger.seq hg.ledger
  have hbroker : g.broker = h.broker := congrArg Ledger.broker hg.ledger
  have hprunes : g.prunes = h.prunes := congrArg Ledger.prunes hg.ledger
  have hlive : g.liveCreator = h.liveCreator := by
    funext s
    simp only [Hub.liveCreator, hbroker]
  refine ⟨?_, ?_, ?_, ?_, ?_, ?_, ?_, ?_⟩
  · rw [hbroker]
    exact ho.serial
  · rw [hbroker]
    exact ho.distinct
  · rw [hbroker]
    exact ho.unborn
  · intro v id n ha
    rw [hbroker, hg.key]
    exact ho.awaits v id n ((hg.awaits v id n).mp ha)
  · intro s i k hi hal hk
    rw [hbroker] at hi hk ⊢
    rcases ho.answered s i k hi hal hk with hack | ⟨v, hv, hkey⟩
    · exact Or.inl hack
    · exact Or.inr ⟨v, (hg.awaits v s i.serial).mpr hv, (hg.key v).trans hkey⟩
  · rw [hlive, howners]
    exact ho.owner
  · rw [hprunes, hseq]
    exact ho.marks
  · rw [hlive, hseqs, hseq, hprunes]
    exact ho.spared

theorem SameLedger.of_viewers {h g : Hub} (hl : g.ledger = h.ledger) (hv : g.viewers = h.viewers) :
    SameLedger h g :=
  ⟨hl, fun v => by rw [hv], fun v id n => by rw [Hub.Awaits, Hub.Awaits, hv]⟩

theorem setViewer_ledger {h : Hub} {v : ℕ} {x : Viewer} (hkey : x.key = (h.viewers v).key)
    (hpc : ∀ id n, x.pc = .creating id (some (some n)) ↔ h.Awaits v id n) :
    SameLedger h (h.setViewer v x) := by
  refine ⟨rfl, ?_, ?_⟩
  · intro w
    by_cases hw : w = v
    · subst hw
      simpa [Hub.setViewer] using hkey
    · simp [Hub.setViewer, hw]
  · intro w id n
    by_cases hw : w = v
    · subst hw
      simpa [Hub.Awaits, Hub.setViewer] using hpc id n
    · simp [Hub.Awaits, Hub.setViewer, hw]

/-- A handler that does not wait with a broker's answer goes on or ends. -/
theorem setPc_ledger {h : Hub} {v : ℕ} {p : Pc} (hold : ∀ id n, ¬h.Awaits v id n)
    (hnew : ∀ id n, p ≠ .creating id (some (some n))) : SameLedger h (h.setPc v p) := by
  refine setViewer_ledger rfl fun id n => ?_
  exact ⟨fun hx => absurd hx (hnew id n), fun hx => absurd hx (hold id n)⟩

theorem finish_ledger {h : Hub} {v : ℕ} (frames : List Frame) (hold : ∀ id n, ¬h.Awaits v id n) :
    SameLedger h (h.finish v frames) := by
  apply setViewer_ledger (by simp)
  intro id n
  exact ⟨fun hx => by simp at hx, fun hx => absurd hx (hold id n)⟩

theorem broadcast_ledger (h : Hub) (t : ℕ) (frame : ℕ → Frame) :
    SameLedger h (h.broadcast t frame) :=
  ⟨rfl, fun v => by simp [Hub.broadcast], fun v id n => by simp [Hub.Awaits, Hub.broadcast]⟩

theorem leave_same_ledger (h : Hub) (t v : ℕ) : SameLedger h (h.leave t v) :=
  SameLedger.of_viewers (leave_ledger h t v) (leave_viewers h t v)

theorem foldl_ledger {α : Type} (f : Hub → α → Hub) (hf : ∀ h x, SameLedger h (f h x))
    (xs : List α) (h : Hub) : SameLedger h (xs.foldl f h) := by
  induction xs generalizing h with
  | nil => exact SameLedger.of_viewers rfl rfl
  | cons x xs ih => exact (hf h x).trans (ih _)

theorem dispose_ledger (h : Hub) (v : ℕ) : SameLedger h (h.dispose v) := by
  have hset : SameLedger h (h.setViewer v { h.viewers v with closed := true, channels := [] }) :=
    setViewer_ledger rfl fun _ _ => Iff.rfl
  exact hset.trans (foldl_ledger _ (fun g p => leave_same_ledger g (Prod.snd p) v) _ _)

theorem shutdown_ledger (h : Hub) : SameLedger h h.shutdown := by
  refine foldl_ledger _ (fun g t => ?_) _ h
  split_ifs
  · exact SameLedger.of_viewers (dropUpstream_ledger g t) (dropUpstream_viewers g t)
  · exact SameLedger.of_viewers rfl rfl

theorem endTap_ledger (h : Hub) (t : ℕ) (reason : EndReason) (hr : reason ≠ .exit) :
    SameLedger h (h.endTap t reason) := by
  simp only [Hub.endTap, if_neg hr]
  split_ifs
  · exact SameLedger.of_viewers rfl rfl
  · refine SameLedger.trans ?_ (broadcast_ledger _ t _)
    exact SameLedger.of_viewers rfl rfl

theorem Owned.dropOwner {h : Hub} (ho : Owned h) {id : String} (hid : h.liveCreator id = none) :
    Owned (h.dropOwner id) := by
  have hne {s k : String} (hk : h.liveCreator s = some k) : s ≠ id := by
    rintro rfl
    rw [hid] at hk
    cases hk
  exact
    { ho with
      owner := fun s k hk => by
        simp only [Hub.dropOwner, Function.update_of_ne (hne hk)]
        exact ho.owner s k hk
      spared := fun s k hk => by
        simp only [Hub.dropOwner, Function.update_of_ne (hne hk)]
        exact ho.spared s k hk }

/-- Sessions die or are removed. -/
theorem Owned.sessions {h : Hub} (ho : Owned h) {f : String → Option Incarnation}
    (hf : ∀ s i, f s = some i → ∃ j, h.broker.sessions s = some j ∧ j.serial = i.serial ∧
      (i.alive = true → j.alive = true)) :
    Owned { h with broker := { h.broker with sessions := f } } := by
  have hlive {s k : String}
      (hk : Hub.liveCreator { h with broker := { h.broker with sessions := f } } s = some k) :
      h.liveCreator s = some k := by
    obtain ⟨i, hi, hal, hack, hcr⟩ := liveCreator_eq_some.mp hk
    obtain ⟨j, hj, hser, hal'⟩ := hf s i hi
    exact liveCreator_eq_some.mpr ⟨j, hj, hal' hal, hser ▸ hack, hser ▸ hcr⟩
  refine ⟨?_, ?_, ho.unborn, ?_, ?_, fun s k hk => ho.owner s k (hlive hk), ho.marks,
    fun s k hk => ho.spared s k (hlive hk)⟩
  · intro s i hi
    obtain ⟨j, hj, hser, -⟩ := hf s i hi
    exact hser ▸ ho.serial s j hj
  · intro s i r j hi hj hij
    obtain ⟨i', hi', hseri, -⟩ := hf s i hi
    obtain ⟨j', hj', hserj, -⟩ := hf r j hj
    exact ho.distinct s i' r j' hi' hj' (hseri.trans (hij.trans hserj.symm))
  · intro v id n ha
    obtain ⟨hlt, hcr, huniq⟩ := ho.awaits v id n ha
    refine ⟨hlt, hcr, fun s i hi hin => ?_⟩
    obtain ⟨j, hj, hser, -⟩ := hf s i hi
    exact huniq s j hj (hser.trans hin)
  · intro s i k hi hal hk
    obtain ⟨j, hj, hser, hal'⟩ := hf s i hi
    have := ho.answered s j k hj (hal' hal) (hser ▸ hk)
    rwa [hser] at this

/-- The broker makes an incarnation; a viewer it was made for waits with the answer. -/
theorem Owned.born {h g : Hub} (ho : Owned h) {id : String} {creator : Option String}
    (hnone : h.broker.sessions id = none) (hb : g.broker = (h.broker.create id creator).1)
    (howners : g.owners = h.owners) (hseqs : g.ownerSeq = h.ownerSeq) (hseq : g.seq = h.seq)
    (hprunes : g.prunes = h.prunes) (hkey : ∀ v, (g.viewers v).key = (h.viewers v).key)
    (hold : ∀ v s n, h.Awaits v s n → g.Awaits v s n)
    (hnew : ∀ v s n, g.Awaits v s n → h.Awaits v s n ∨
      (s = id ∧ n = h.broker.nextSerial ∧ creator = some (h.viewers v).key))
    (hcreator : ∀ k, creator = some k →
      ∃ v, g.Awaits v id h.broker.nextSerial ∧ (h.viewers v).key = k) : Owned g := by
  have hsessions (s : String) : g.broker.sessions s =
      if s = id then some ⟨h.broker.nextSerial, true⟩ else h.broker.sessions s := by
    simp [hb, Broker.create, hnone, Function.update_apply]
  have hnext : g.broker.nextSerial = h.broker.nextSerial + 1 := by
    simp [hb, Broker.create, hnone]
  have hacked : g.broker.acked = h.broker.acked := by
    simp [hb, Broker.create, hnone]
  have hcr (n : ℕ) : g.broker.creator n =
      if n = h.broker.nextSerial then creator else h.broker.creator n := by
    simp [hb, Broker.create, hnone, Function.update_apply]
  have hlive {s k : String} (hk : g.liveCreator s = some k) : h.liveCreator s = some k := by
    obtain ⟨i, hi, hal, hack, hcri⟩ := liveCreator_eq_some.mp hk
    rw [hsessions] at hi
    rw [hacked] at hack
    rw [hcr] at hcri
    split_ifs at hi with hs
    · cases hi
      rw [ho.unborn _ (le_refl _)] at hack
      cases hack
    · have := ho.serial s i hi
      rw [if_neg (by omega)] at hcri
      exact liveCreator_eq_some.mpr ⟨i, hi, hal, hack, hcri⟩
  refine ⟨?_, ?_, ?_, ?_, ?_, ?_, ?_, ?_⟩
  · intro s i hi
    rw [hsessions] at hi
    rw [hnext]
    split_ifs at hi
    · cases hi
      exact Nat.lt_succ_self _
    · have := ho.serial s i hi
      omega
  · intro s i r j hi hj hij
    rw [hsessions] at hi hj
    split_ifs at hi hj with hs hr hr
    · rw [hs, hr]
    · cases hi
      have := ho.serial r j hj
      simp only at hij
      omega
    · cases hj
      have := ho.serial s i hi
      simp only at hij
      omega
    · exact ho.distinct s i r j hi hj hij
  · intro n hn
    rw [hacked]
    rw [hnext] at hn
    exact ho.unborn n (by omega)
  · intro v s n ha
    rw [hnext, hcr, hkey]
    rcases hnew v s n ha with hx | ⟨rfl, rfl, hck⟩
    · obtain ⟨hlt, hcn, huniq⟩ := ho.awaits v s n hx
      rw [if_neg (by omega)]
      refine ⟨by omega, hcn, fun r i hi hin => ?_⟩
      rw [hsessions] at hi
      split_ifs at hi
      · cases hi
        simp only at hin
        omega
      · exact huniq r i hi hin
    · rw [if_pos rfl]
      refine ⟨by omega, hck, fun r i hi hin => ?_⟩
      rw [hsessions] at hi
      split_ifs at hi with hr
      · exact hr
      · have := ho.serial r i hi
        omega
  · intro s i k hi hal hk
    rw [hsessions] at hi
    rw [hcr] at hk
    rw [hacked]
    split_ifs at hi with hs
    · cases hi
      rw [if_pos rfl] at hk
      obtain ⟨v, hv, hkv⟩ := hcreator k hk
      exact Or.inr ⟨v, hs ▸ hv, (hkey v).trans hkv⟩
    · have := ho.serial s i hi
      rw [if_neg (by omega)] at hk
      rcases ho.answered s i k hi hal hk with hack | ⟨v, hv, hkv⟩
      · exact Or.inl hack
      · exact Or.inr ⟨v, hold v s i.serial hv, (hkey v).trans hkv⟩
  · intro s k hk
    rw [howners]
    exact ho.owner s k (hlive hk)
  · rw [hprunes, hseq]
    exact ho.marks
  · intro s k hk
    rw [hseqs, hseq, hprunes]
    exact ho.spared s k (hlive hk)

theorem finish_awaits {h : Hub} {v w : ℕ} {frames : List Frame} {s : String} {n : ℕ} :
    (h.finish v frames).Awaits w s n ↔ h.Awaits w s n ∧ w ≠ v := by
  by_cases hw : w = v <;> simp [Hub.Awaits, Hub.finish, Hub.setViewer, hw]

/-- A granted CREATE is answered: no other identity may own the session meanwhile. -/
theorem Owned.created {h : Hub} (ho : Owned h) {v n : ℕ} {id : String} (ha : h.Awaits v id n)
    (hk : ∀ k ∈ h.liveCreator id, k = (h.viewers v).key) : Owned (h.created v id n) := by
  obtain ⟨hlt, hcn, huniq⟩ := ho.awaits v id n ha
  have hacked (m : ℕ) : (h.created v id n).broker.acked m =
      if m = n then true else h.broker.acked m := by
    simp [Hub.created, Hub.finish, Hub.setViewer, Function.update_apply]
  have howners (s : String) : (h.created v id n).owners s =
      if s = id then some (h.viewers v).key else h.owners s := by
    simp [Hub.created, Hub.finish, Hub.setViewer, Hub.setOwner, Function.update_apply]
  have hseqs (s : String) : (h.created v id n).ownerSeq s =
      if s = id then some (h.seq + 1) else h.ownerSeq s := by
    simp [Hub.created, Hub.finish, Hub.setViewer, Hub.setOwner, Function.update_apply]
  have hkey (w : ℕ) : ((h.created v id n).viewers w).key = (h.viewers w).key := by
    by_cases hw : w = v <;> simp [Hub.created, Hub.finish, Hub.setViewer, Hub.setOwner, hw]
  have hawaits (w : ℕ) (s : String) (m : ℕ) :
      (h.created v id n).Awaits w s m ↔ h.Awaits w s m ∧ w ≠ v :=
    finish_awaits
  have hlive {s k : String} (hlk : (h.created v id n).liveCreator s = some k) :
      h.liveCreator s = some k ∨ (s = id ∧ k = (h.viewers v).key) := by
    obtain ⟨i, hi, hal, hack, hcr⟩ := liveCreator_eq_some.mp hlk
    rw [hacked] at hack
    split_ifs at hack with hin
    · rw [hin] at hcr
      exact Or.inr ⟨huniq s i hi hin, Option.some.inj (hcr.symm.trans hcn)⟩
    · exact Or.inl (liveCreator_eq_some.mpr ⟨i, hi, hal, hack, hcr⟩)
  refine ⟨ho.serial, ho.distinct, ?_, ?_, ?_, ?_, ?_, ?_⟩
  · intro m hm
    have hge : h.broker.nextSerial ≤ m := hm
    rw [hacked, if_neg (by omega)]
    exact ho.unborn m hge
  · intro w s m hw
    rw [hkey]
    exact ho.awaits w s m ((hawaits w s m).mp hw).1
  · intro s i k hi hal hcr
    rw [hacked]
    split_ifs with hin
    · exact Or.inl rfl
    · rcases ho.answered s i k hi hal hcr with hack | ⟨w, hw, hkw⟩
      · exact Or.inl hack
      · refine Or.inr ⟨w, (hawaits w s i.serial).mpr ⟨hw, ?_⟩, (hkey w).trans hkw⟩
        rintro rfl
        rw [Hub.Awaits, ha] at hw
        cases hw
        exact hin rfl
  · intro s k hlk
    rw [howners]
    rcases hlive hlk with hlk | ⟨rfl, rfl⟩
    · split_ifs with hs
      · rw [hk k (hs ▸ hlk)]
      · exact ho.owner s k hlk
    · rw [if_pos rfl]
  · intro j p hp
    have := ho.marks j p hp
    change p.mark ≤ h.seq + 1
    omega
  · intro s k hlk
    rw [hseqs]
    by_cases hs : s = id
    · rw [if_pos hs]
      refine ⟨h.seq + 1, rfl, le_refl _, fun j mark live hp hle => ?_⟩
      have hmark := ho.marks j _ hp
      simp only at hmark
      omega
    · rw [if_neg hs]
      rcases hlive hlk with hlk | ⟨hsid, -⟩
      · obtain ⟨q, hq, hqs, hlisted⟩ := ho.spared s k hlk
        exact ⟨q, hq, hqs.trans (Nat.le_succ _), hlisted⟩
      · exact absurd hsid hs

/-- The reply to a CREATE is lost: then the broker must not have made a session that lives. -/
theorem Owned.createFail {h : Hub} (ho : Owned h) {v : ℕ} {frames : List Frame}
    (hlost : ∀ id n, h.Awaits v id n → h.broker.sessions id ≠ some ⟨n, true⟩) :
    Owned (h.finish v frames) := by
  have hkey (w : ℕ) : ((h.finish v frames).viewers w).key = (h.viewers w).key := by
    by_cases hw : w = v <;> simp [Hub.finish, Hub.setViewer, hw]
  refine ⟨ho.serial, ho.distinct, ho.unborn, ?_, ?_, ho.owner, ho.marks, ho.spared⟩
  · intro w s m hw
    rw [hkey]
    exact ho.awaits w s m (finish_awaits.mp hw).1
  · intro s i k hi hal hcr
    rcases ho.answered s i k hi hal hcr with hack | ⟨w, hw, hkw⟩
    · exact Or.inl hack
    · refine Or.inr ⟨w, finish_awaits.mpr ⟨hw, ?_⟩, (hkey w).trans hkw⟩
      rintro rfl
      apply hlost s i.serial hw
      rw [show h.broker.sessions s = some i from hi, ← hal]

theorem Owned.prunes {h : Hub} (ho : Owned h) {k : ℕ} {p : Option Prune}
    (hmark : ∀ x ∈ p, x.mark ≤ h.seq)
    (hlive : ∀ mark live, p = some ⟨mark, some live⟩ → ∀ s, h.broker.alive s = true →
      live s = true) :
    Owned { h with prunes := Function.update h.prunes k p } := by
  have hx (j : ℕ) : Function.update h.prunes k p j = if j = k then p else h.prunes j := by
    rw [Function.update_apply]
  exact
    { ho with
      marks := fun j x hp => by
        change Function.update h.prunes k p j = some x at hp
        rw [hx] at hp
        split_ifs at hp
        · exact hmark x hp
        · exact ho.marks j x hp
      spared := fun s key hlk => by
        obtain ⟨q, hq, hqs, hlisted⟩ := ho.spared s key hlk
        refine ⟨q, hq, hqs, fun j mark live hp hle => ?_⟩
        change Function.update h.prunes k p j = _ at hp
        rw [hx] at hp
        split_ifs at hp
        · obtain ⟨i, hi, hal, -⟩ := liveCreator_eq_some.mp hlk
          have hi' : h.broker.sessions s = some i := hi
          exact hlive mark live hp s (by simp [Broker.alive, hi', hal])
        · exact hlisted j mark live hp hle }

/-- Pruning spares the owner of a live session: it was set after the mark, or the listing,
taken after the mark, has the session. -/
theorem Owned.pruneOwners {h : Hub} (ho : Owned h) {k mark : ℕ} {live : String → Bool}
    (hp : h.prunes k = some ⟨mark, some live⟩) : Owned (h.pruneOwners live mark) := by
  have hspare {s key : String} (hlk : h.liveCreator s = some key) :
      ((h.ownerSeq s).any fun seq => seq ≤ mark && !live s) = false := by
    obtain ⟨q, hq, -, hlisted⟩ := ho.spared s key hlk
    rw [hq, Option.any_some]
    by_cases hle : q ≤ mark
    · simp [hlisted k mark live hp hle]
    · simp [hle]
  exact
    { ho with
      owner := fun s key hlk => by
        simp only [Hub.pruneOwners, hspare hlk, Bool.false_eq_true, if_false]
        exact ho.owner s key hlk
      spared := fun s key hlk => by
        simp only [Hub.pruneOwners, hspare hlk, Bool.false_eq_true, if_false]
        exact ho.spared s key hlk }

/-- The step meets the session it is about: a CREATE is answered while no other identity's
session of that id lives, and not lost if it was granted; an exit or the completion of a CLOSE
drops the owner of a session nobody holds; and the session a CLOSE asks to close, if it lives,
is one the hub was told it created. -/
def Timely (h : Hub) : Action → Prop
  | .createReply v =>
    match (h.viewers v).pc with
    | .creating id (some (some _)) => ∀ k ∈ h.liveCreator id, k = (h.viewers v).key
    | _ => True
  | .createFail v =>
    match (h.viewers v).pc with
    | .creating id (some (some n)) => h.broker.sessions id ≠ some ⟨n, true⟩
    | _ => True
  | .ended c =>
    (h.taps (h.conns c).tap).ended = false → h.liveCreator (h.taps (h.conns c).tap).id = none
  | .closeResume v =>
    match (h.viewers v).pc with
    | .closed t _ => h.liveCreator (h.taps t).id = none
    | _ => True
  | .close v ch =>
    ∀ t ∈ h.ownedTap v ch, (h.taps t).upstream ≠ none →
      h.broker.alive (h.taps t).id = true → h.liveCreator (h.taps t).id ≠ none
  | _ => True

instance (h : Hub) (a : Action) : Decidable (Timely h a) := by
  unfold Timely
  split
  · split <;> infer_instance
  · split <;> infer_instance
  · infer_instance
  · split <;> infer_instance
  · infer_instance
  · infer_instance

theorem endTap_exit (h : Hub) (t : ℕ) (ht : (h.taps t).ended = false) :
    SameLedger (h.dropOwner (h.taps t).id) (h.endTap t .exit) := by
  simp only [Hub.endTap, ht, Bool.false_eq_true, if_false, if_true]
  refine SameLedger.trans ?_ (broadcast_ledger _ t _)
  exact SameLedger.of_viewers rfl rfl

theorem ready_not_awaits {h : Hub} {v : ℕ} (hr : h.ready v) (id : String) (n : ℕ) :
    ¬h.Awaits v id n := by
  rw [Hub.Awaits, hr.1]
  exact Pc.noConfusion

theorem not_awaits_of_pc {h : Hub} {v : ℕ} {p : Pc} (hpc : (h.viewers v).pc = p)
    (hp : ∀ id n, p ≠ .creating id (some (some n))) (id : String) (n : ℕ) : ¬h.Awaits v id n := by
  rw [Hub.Awaits, hpc]
  exact hp id n

theorem register_ledger {h : Hub} {v : ℕ} (hold : ∀ id n, ¬h.Awaits v id n) (t ch : ℕ) :
    SameLedger h (h.register v t ch) := by
  have htap : SameLedger h (h.setTap t ((h.taps t).withViewer v ch)) :=
    SameLedger.of_viewers rfl rfl
  refine htap.trans (setViewer_ledger (by simp [Hub.setTap]) fun id n => ?_)
  exact ⟨fun hx => by simp at hx, fun hx => absurd hx (hold id n)⟩

theorem Owned.brokerCreate {h : Hub} (ho : Owned h) {v : ℕ} {id : String}
    (hpc : (h.viewers v).pc = .creating id none) :
    Owned ({ h with broker := (h.broker.create id (some (h.viewers v).key)).1 }.setPc v
      (.creating id (some (h.broker.create id (some (h.viewers v).key)).2))) := by
  have hnot : ∀ s n, ¬h.Awaits v s n := not_awaits_of_pc hpc (by simp)
  cases hses : h.broker.sessions id with
  | some i =>
    have hmade : h.broker.create id (some (h.viewers v).key) = (h.broker, none) := by
      simp [Broker.create, hses]
    rw [hmade]
    exact ho.same (setPc_ledger hnot (by simp))
  | none =>
    have hanswer : (h.broker.create id (some (h.viewers v).key)).2 = some h.broker.nextSerial := by
      simp [Broker.create, hses]
    rw [hanswer]
    refine ho.born hses rfl rfl rfl rfl rfl ?_ ?_ ?_ ?_
    · intro w
      by_cases hw : w = v <;> simp [Hub.setPc, Hub.setViewer, hw]
    · intro w s n hw
      have hwv : w ≠ v := by
        rintro rfl
        exact hnot s n hw
      simpa [Hub.Awaits, Hub.setPc, Hub.setViewer, hwv] using hw
    · intro w s n hw
      by_cases hwv : w = v
      · subst hwv
        simp only [Hub.Awaits, Hub.setPc, Hub.setViewer, Function.update_self, Pc.creating.injEq,
          Option.some.injEq] at hw
        exact Or.inr ⟨hw.1.symm, hw.2.symm, rfl⟩
      · exact Or.inl (by simpa [Hub.Awaits, Hub.setPc, Hub.setViewer, hwv] using hw)
    · intro k hk
      exact ⟨v, by simp [Hub.Awaits, Hub.setPc, Hub.setViewer], Option.some.inj hk⟩

theorem step_owned {h g : Hub} {a : Action} (ho : Owned h) (hok : Timely h a)
    (hs : step h a = some g) : Owned g := by
  have inert {b : Hub} (hl : b.ledger = h.ledger) (hv : b.viewers = h.viewers) : SameLedger h b :=
    SameLedger.of_viewers hl hv
  have dropChannel (v ch : ℕ) : SameLedger h (h.dropChannel v ch) :=
    setViewer_ledger rfl fun _ _ => Iff.rfl
  cases step_sound hs with
  | reply _ _ hn => exact ho.same (finish_ledger _ hn)
  | wait hr => exact ho.same (setPc_ledger (ready_not_awaits hr) (by simp))
  | @reopen v id ch t hr =>
    have hopen : SameLedger h (h.openTap t) := inert rfl rfl
    refine ho.same (hopen.trans (setPc_ledger ?_ (by simp)))
    exact ready_not_awaits hr
  | @openNew v id ch hr _ _ _ hl =>
    have hopen : SameLedger h ((h.tap id).1.openTap h.nextTap) := by
      apply inert <;> simp [Hub.tap, hl, Hub.openTap, Hub.setTap, Hub.setConn, Hub.ledger]
    refine ho.same (hopen.trans (setPc_ledger (fun s n hx => ?_) (by simp)))
    exact ready_not_awaits hr s n ((hopen.awaits v s n).mp hx)
  | registerNow hr => exact ho.same (register_ledger (ready_not_awaits hr) _ _)
  | joinOk hpc => exact ho.same (register_ledger (not_awaits_of_pc hpc (by simp)) _ _)
  | @joinRefused v t ch c error hpc =>
    have hretire (b : Hub) (hb : b.ledger = h.ledger) (hv : b.viewers = h.viewers) :
        Owned (b.setPc v (.attaching t ch (.refused error))) := by
      have hsame := inert hb hv
      refine ho.same (hsame.trans (setPc_ledger (fun s n hx => ?_) (by simp)))
      exact not_awaits_of_pc hpc (by simp) s n ((hsame.awaits v s n).mp hx)
    simp only [Hub.joinResume]
    split_ifs
    · exact hretire _ rfl rfl
    · exact hretire _ rfl rfl
  | @attachedClosed v t ch hpc =>
    refine ho.same ((leave_same_ledger h t v).trans (setPc_ledger (fun s n hx => ?_) (by simp)))
    exact not_awaits_of_pc hpc (by simp) s n (((leave_same_ledger h t v).awaits v s n).mp hx)
  | attached hpc hc =>
    rw [attached_viewer hc]
    refine ho.same (setViewer_ledger rfl fun s n => ?_)
    exact ⟨fun hx => by simp at hx, fun hx => absurd hx (not_awaits_of_pc hpc (by simp) s n)⟩
  | @detach v ch t hr =>
    have hleave := (dropChannel v ch).trans (leave_same_ledger _ t v)
    refine ho.same (hleave.trans (setPc_ledger (fun s n hx => ?_) (by simp)))
    exact ready_not_awaits hr s n ((hleave.awaits v s n).mp hx)
  | @closeAsk v ch t c hr =>
    refine ho.same ((dropChannel v ch).trans (setPc_ledger (fun s n hx => ?_) (by simp)))
    exact ready_not_awaits hr s n (((dropChannel v ch).awaits v s n).mp hx)
  | @closeEnd v ch t hr =>
    have hend := (dropChannel v ch).trans
      (endTap_ledger (h.dropChannel v ch) t .closed (by simp))
    refine ho.same (hend.trans (setPc_ledger (fun s n hx => ?_) (by simp)))
    exact ready_not_awaits hr s n ((hend.awaits v s n).mp hx)
  | @closeReply v t ch c hpc =>
    have hend := endTap_ledger h t .closed (by simp)
    refine ho.same (hend.trans (setPc_ledger (fun s n hx => ?_) (by simp)))
    exact not_awaits_of_pc hpc (by simp) s n ((hend.awaits v s n).mp hx)
  | @closeResume v t ch hpc =>
    have hnone : h.liveCreator (h.taps t).id = none := by
      simpa only [Timely, hpc] using hok
    exact (ho.dropOwner hnone).same (finish_ledger _ (not_awaits_of_pc hpc (by simp)))
  | create hr => exact ho.same (setPc_ledger (ready_not_awaits hr) (by simp))
  | @created v id n hpc =>
    have hk : ∀ k ∈ h.liveCreator id, k = (h.viewers v).key := by
      simpa only [Timely, hpc] using hok
    exact ho.created hpc hk
  | @createFail v id answer hpc =>
    refine ho.createFail fun s n hx => ?_
    rw [Hub.Awaits] at hx
    simpa only [Timely, hx] using hok
  | dispose => exact ho.same (dispose_ledger h _)
  | accept => exact ho.same (inert rfl rfl)
  | openOk => exact ho.same (inert rfl rfl)
  | openFail => exact ho.same (inert rfl rfl)
  | @deliver _ c body frame =>
    have hset : SameLedger h (h.setTap (h.conns c).tap
        { h.taps (h.conns c).tap with
          replay := ReplayBuffer.append replayBytes (h.taps (h.conns c).tap).replay body
          stream := (h.taps (h.conns c).tap).stream ++ body }) :=
      inert rfl rfl
    exact ho.same (hset.trans (broadcast_ledger _ _ frame))
  | @ended c =>
    cases hend : (h.taps (h.conns c).tap).ended with
    | true =>
      have : h.endTap (h.conns c).tap .exit = h := by simp [Hub.endTap, hend]
      rw [this]
      exact ho
    | false => exact (ho.dropOwner (hok hend)).same (endTap_exit h _ hend)
  | @gone c =>
    have hset : SameLedger h (h.setConn c { h.conns c with status := .closed }) := inert rfl rfl
    exact ho.same (hset.trans (endTap_ledger _ _ .brokerGone (by simp)))
  | detached => exact ho.same (inert rfl rfl)
  | shutdown => exact ho.same (shutdown_ledger h)
  | brokerCreate hpc => exact ho.brokerCreate hpc
  | @brokerSpawn id =>
    cases hses : h.broker.sessions id with
    | some i =>
      refine ho.same (inert ?_ rfl)
      simp [Hub.ledger, Broker.create, hses]
    | none =>
      exact ho.born hses rfl rfl rfl rfl rfl (fun _ => rfl) (fun _ _ _ hx => hx)
        (fun _ _ _ hx => Or.inl hx) (by simp)
  | @brokerExit id =>
    refine ho.sessions fun s i hi => ?_
    rw [Function.update_apply] at hi
    split_ifs at hi with hs
    · obtain ⟨j, hj, rfl⟩ := Option.map_eq_some_iff.mp hi
      exact ⟨j, hs ▸ hj, rfl, by simp⟩
    · exact ⟨i, hi, rfl, fun hal => hal⟩
  | brokerClose =>
    refine ho.sessions fun s i hi => ?_
    rw [Function.update_apply] at hi
    split_ifs at hi
    exact ⟨i, hi, rfl, id⟩
  | pruneMark => exact ho.prunes (by simp) (by simp)
  | @pruneList k mark hp =>
    refine ho.prunes (fun x hx => ?_) fun m live heq s hal => ?_
    · cases hx
      exact ho.marks k ⟨mark, none⟩ hp
    · cases heq
      exact hal
  | pruneApply hp => exact (ho.pruneOwners hp).prunes (by simp) (by simp)

/-- A CLOSE frame that asks the broker to close a session does so for the identity whose CREATE
made the incarnation that lives. -/
def CloseByCreator (h : Hub) : Action → Prop
  | .close v ch => ∀ t ∈ h.ownedTap v ch, (h.taps t).upstream ≠ none →
      ∀ i, h.broker.sessions (h.taps t).id = some i → i.alive = true →
        h.broker.creator i.serial = some (h.viewers v).key
  | _ => True

theorem Owned.close {h : Hub} (ho : Owned h) {a : Action} (hok : Timely h a) :
    CloseByCreator h a := by
  cases a with
  | close v ch =>
    intro t ht hu i hi hal
    have hne := hok t ht hu (by simp [Broker.alive, hi, hal])
    obtain ⟨k, hk⟩ := Option.ne_none_iff_exists'.mp hne
    have howner := ho.owner _ k hk
    rw [(ownedTap_eq_some.mp ht).2] at howner
    obtain ⟨j, hj, -, -, hcr⟩ := liveCreator_eq_some.mp hk
    rw [hi] at hj
    cases hj
    rw [hcr, howner]
  | _ => trivial

/-- Owner-only close, and ownership is not lost: in a run whose steps are timely, every CLOSE
that reaches the broker is its session's creator's, and a living session that was created
through the hub has its creator as owner as soon as the CREATE is answered. -/
theorem owner_only_close (key : ℕ → String) (as : List Action) (h : Hub)
    (hrun : run step (Hub.initial key) as = some h)
    (hok : Along step Timely (Hub.initial key) as) :
    Along step CloseByCreator (Hub.initial key) as ∧
      ∀ s i k, h.broker.sessions s = some i → i.alive = true →
        h.broker.creator i.serial = some k → h.owners s = some k ∨
          ∃ v, (h.viewers v).pc = .creating s (some (some i.serial)) ∧ (h.viewers v).key = k := by
  refine ⟨along_of_invariant (fun _ _ _ hI ht hs => step_owned hI ht hs)
    (fun _ _ hI ht => hI.close ht) (initial_owned key) hok, fun s i k hi hal hcr => ?_⟩
  have ho : Owned h :=
    run_invariant_along (fun _ _ _ hI ht hs => step_owned hI ht hs) (initial_owned key) hrun hok
  rcases ho.answered s i k hi hal hcr with hack | hwait
  · exact Or.inl (ho.owner s k (liveCreator_eq_some.mpr ⟨i, hi, hal, hack, hcr⟩))
  · exact Or.inr hwait

/-- A session is created, closed by its owner, and its id taken by another identity; a pruning
pass overlaps the second CREATE. -/
def handOver : List Action :=
  [.create 0 "s" true, .brokerCreate 0, .createReply 0, .attach 0 "s" 1, .accept 0, .openOk 0,
    .joinResume 0, .attachResume 0, .close 0 1, .brokerClose "s", .closeReply 0 true,
    .closeResume 0, .pruneMark 0, .pruneList 0, .create 1 "s" true, .brokerCreate 1,
    .createReply 1, .pruneApply 0]

theorem owner_only_close_hand_over :
    ((run step (Hub.initial fun v => if v = 0 then "a" else "b") handOver).any fun h =>
        h.owners "s" = some "b") = true ∧
    ∀ h, run step (Hub.initial fun v => if v = 0 then "a" else "b") handOver = some h →
      Along step CloseByCreator (Hub.initial fun v => if v = 0 then "a" else "b") handOver ∧
        ∀ s i k, h.broker.sessions s = some i → i.alive = true →
          h.broker.creator i.serial = some k → h.owners s = some k ∨
            ∃ v, (h.viewers v).pc = .creating s (some (some i.serial)) ∧ (h.viewers v).key = k :=
  ⟨by decide +kernel, fun h hrun => owner_only_close _ _ h hrun (by decide +kernel)⟩

/-- The broker closes the first owner's session and makes a new one for another identity before
the first owner's CLOSE completes. -/
def staleClose : List Action :=
  [.create 0 "s" true, .brokerCreate 0, .createReply 0, .attach 0 "s" 1, .accept 0, .openOk 0,
    .joinResume 0, .attachResume 0, .close 0 1, .brokerClose "s", .create 1 "s" true,
    .brokerCreate 1, .createReply 1, .closeReply 0 true, .closeResume 0]

/-- The completed CLOSE drops the owner of the new session. -/
theorem stale_close_drops_owner :
    ∃ h, run step (Hub.initial fun v => if v = 0 then "a" else "b") staleClose = some h ∧
      h.broker.sessions "s" = some ⟨1, true⟩ ∧ h.broker.creator 1 = some "b" ∧
        h.broker.acked 1 = true ∧ h.owners "s" = none := by
  have hany : (run step (Hub.initial fun v => if v = 0 then "a" else "b") staleClose).any fun h =>
      h.broker.sessions "s" = some ⟨1, true⟩ ∧ h.broker.creator 1 = some "b" ∧
        h.broker.acked 1 = true ∧ h.owners "s" = none := by decide +kernel
  obtain ⟨h, hrun, hh⟩ := (Option.any_eq_true _ _).mp hany
  exact ⟨h, hrun, of_decide_eq_true hh⟩

end ClaudeFleet.AttachHub
