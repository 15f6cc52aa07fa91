import ClaudeFleet.Table
import ClaudeFleet.Transition

/-! The session manager of the local backend: one claude process for each tab, kept alive while
viewers come and go, with a ring of its recent output. A session is known by the number of its
process and a viewer by the number of its stream; the callbacks of a process may come at any time,
also after it was killed. -/
namespace ClaudeFleet.LocalSessions

abbrev Bytes := List UInt8

def RING_CAP_BYTES : ℕ := 256 * 1024

structure Session where
  key : String := ""
  ring : List Bytes := []
  ringBytes : ℕ := 0
  ringTrimmed : Bool := false
  sub : Option ℕ := none
  exited : Bool := false
  /-- `kill` was called on the process. -/
  killed : Bool := false
  /-- By `killWorkspaceSessions`. -/
  swept : Bool := false
  /-- The exit callback of the process ran. -/
  gone : Bool := false
  deriving DecidableEq

def sessionKey (workspaceId sessionId : String) : String :=
  workspaceId ++ "\x00" ++ sessionId

/-- The first byte of a trimmed history that is not inside an escape sequence. -/
def safeReplayStart (history : Bytes) : ℕ :=
  match history.findIdx? (· = 0x1b), history.findIdx? (· = 0x0a) with
  | none, none => (history.takeWhile fun x => x &&& 0xc0 = 0x80).length
  | none, some nl => nl + 1
  | some esc, none => esc
  | some esc, some nl => min esc (nl + 1)

/-- The loop of `appendRing`, which keeps at least the latest chunk. -/
def trimRing : List Bytes → ℕ → Bool → List Bytes × ℕ × Bool
  | head :: next :: rest, ringBytes, trimmed =>
    if RING_CAP_BYTES < ringBytes then trimRing (next :: rest) (ringBytes - head.length) true
    else (head :: next :: rest, ringBytes, trimmed)
  | ring, ringBytes, trimmed => (ring, ringBytes, trimmed)

def appendRing (s : Session) (buf : Bytes) : Session :=
  let (ring, ringBytes, trimmed) :=
    trimRing (s.ring ++ [buf]) (s.ringBytes + buf.length) s.ringTrimmed
  { s with ring := ring, ringBytes := ringBytes, ringTrimmed := trimmed }

/-- What a new viewer is replayed. -/
def replay (s : Session) : List (Option Bytes) :=
  let history := s.ring.flatten
  let start := if s.ringTrimmed then safeReplayStart history else 0
  (if start < history.length then [some (history.drop start)] else []) ++
    if s.exited then [none] else []

/-- A stream is what was pushed to it, where `none` is the end of file; `viewers` has the session
of each. -/
structure State where
  sessions : Table (Prod.fst : String × ℕ → String)
  made : ℕ → Session
  spawned : ℕ
  streams : ℕ → List (Option Bytes)
  viewers : ℕ → ℕ
  opened : ℕ

namespace State

def start : State := ⟨.empty, fun _ => {}, 0, fun _ => [], fun _ => 0, 0⟩

def set (s : State) (p : ℕ) (x : Session) : State :=
  { s with made := Function.update s.made p x }

def push (s : State) (st : ℕ) (chunk : Option Bytes) : State :=
  { s with streams := Function.update s.streams st (s.streams st ++ [chunk]) }

/-- `s.sub?.push(chunk)` -/
def pushSub (s : State) (p : ℕ) (chunk : Option Bytes) : State :=
  match (s.made p).sub with
  | some st => s.push st chunk
  | none => s

/-- `sessions.delete(key)` -/
def unregister (s : State) (key : String) : State :=
  { s with sessions := s.sessions.deleteWhere fun r => r.1 = key }

/-- The session under the key that has not exited. -/
def live? (s : State) (key : String) : Option ℕ :=
  match s.sessions.get key with
  | some (_, p) => if (s.made p).exited then none else some p
  | none => none

def hasLiveSession (s : State) (workspaceId sessionId : String) : Bool :=
  (s.live? (sessionKey workspaceId sessionId)).isSome

def spawn (s : State) (key : String) : State :=
  { s.set s.spawned { key := key } with
    sessions := s.sessions.upsert (key, s.spawned) (fun r => (r.1, s.spawned)) fun _ => rfl
    spawned := s.spawned + 1 }

/-- The rest of an attach: a viewer that is still wired is ended. -/
def view (s : State) (p : ℕ) : State :=
  let t := s.pushSub p none
  { t.set p { s.made p with sub := some s.opened } with
    streams := Function.update t.streams s.opened (replay (s.made p))
    viewers := Function.update s.viewers s.opened p
    opened := s.opened + 1 }

def unview (s : State) (st : ℕ) : State :=
  let x := s.made (s.viewers st)
  s.set (s.viewers st) { x with sub := if x.sub = some st then none else x.sub }

def close (s : State) (st : ℕ) : State :=
  let s := s.unview st
  let x := s.made (s.viewers st)
  (s.set (s.viewers st) { x with killed := true, exited := true }).unregister x.key

/-- One turn of the loop of `killWorkspaceSessions`. -/
def sweep (s : State) (r : String × ℕ) : State :=
  ((s.set r.2 { s.made r.2 with killed := true, swept := true }).pushSub r.2 none).unregister r.1

def killWorkspaceSessions (s : State) (workspaceId : String) : State :=
  let rows := s.sessions.rows.filter fun r =>
    (workspaceId ++ "\x00").toList.isPrefixOf r.1.toList
  rows.foldl sweep s

def onData (s : State) (p : ℕ) (buf : Bytes) : State :=
  (s.set p (appendRing (s.made p) buf)).pushSub p (some buf)

def onExit (s : State) (p : ℕ) : State :=
  let x := s.made p
  ((s.set p { x with exited := true, gone := true }).pushSub p none).unregister x.key

end State

inductive Action
  /-- The spawn may fail, and the attach with it. -/
  | attach (workspaceId sessionId : String) (spawns : Bool)
  | detach (st : ℕ)
  | close (st : ℕ)
  | kill (workspaceId : String)
  | data (p : ℕ) (buf : Bytes)
  | exit (p : ℕ)
  deriving DecidableEq

def step (s : State) : Action → Option State
  | .attach workspaceId sessionId spawns =>
    let key := sessionKey workspaceId sessionId
    match s.live? key with
    | some p => some (s.view p)
    | none => some (if spawns then (s.spawn key).view s.spawned else s)
  | .detach st => if st < s.opened then some (s.unview st) else none
  | .close st => if st < s.opened then some (s.close st) else none
  | .kill workspaceId => some (s.killWorkspaceSessions workspaceId)
  | .data p buf => if p < s.spawned then some (s.onData p buf) else none
  | .exit p => if p < s.spawned then some (s.onExit p) else none

/-- A process that has been neither killed nor has exited. -/
def State.Live (s : State) (p : ℕ) : Prop :=
  p < s.spawned ∧ (s.made p).killed = false ∧ (s.made p).gone = false

/-- The key of the session is not another's by now. -/
def State.Holds (s : State) (p : ℕ) : Prop := ∀ r ∈ s.sessions.get (s.made p).key, r.2 = p

/-- The session has no viewer, or its process has neither exited nor been swept. -/
def State.Open (s : State) (p : ℕ) : Prop :=
  (s.made p).sub = none ∨ (s.made p).gone = false ∧ (s.made p).swept = false

instance (s : State) (p : ℕ) : Decidable (s.Holds p) :=
  inferInstanceAs (Decidable (∀ r ∈ s.sessions.get (s.made p).key, r.2 = p))

instance (s : State) (p : ℕ) : Decidable (s.Open p) :=
  inferInstanceAs (Decidable ((s.made p).sub = none ∨ _))

/-- No exit or close comes after the key was given to another process, and no callback of a process
that has exited or was swept while a viewer is wired to it. -/
def Timely (s : State) : Action → Prop
  | .close st => s.Holds (s.viewers st)
  | .data p _ => s.Open p
  | .exit p => s.Holds p ∧ s.Open p
  | _ => True

instance (s : State) : (a : Action) → Decidable (Timely s a)
  | .attach _ _ _ => isTrue trivial
  | .detach _ => isTrue trivial
  | .close st => inferInstanceAs (Decidable (s.Holds (s.viewers st)))
  | .kill _ => isTrue trivial
  | .data p _ => inferInstanceAs (Decidable (s.Open p))
  | .exit p => inferInstanceAs (Decidable (s.Holds p ∧ s.Open p))

/-! The registry has exactly the processes that live. -/

structure Sound (s : State) : Prop where
  known : ∀ r ∈ s.sessions.rows, s.Live r.2 ∧ (s.made r.2).key = r.1 ∧ (s.made r.2).exited = false
  live : ∀ p, s.Live p → ((s.made p).key, p) ∈ s.sessions.rows
  sub : ∀ p st, (s.made p).sub = some st → p < s.spawned ∧ st < s.opened ∧ s.viewers st = p
  ended : ∀ p st, (s.made p).sub = some st → (s.made p).gone = false → (s.made p).swept = false →
    none ∉ s.streams st
  swept : ∀ p, (s.made p).swept = true → (s.made p).killed = true
  clean : ∀ st, none ∉ (s.streams st).dropLast

theorem start_sound : Sound State.start := by
  constructor <;> simp [State.start, State.Live, Table.empty]

section Sound
variable {s : State} {p : ℕ}

@[simp] theorem set_made (s : State) (p : ℕ) (x : Session) (q : ℕ) :
    (s.set p x).made q = if q = p then x else s.made q := by
  simp [State.set, Function.update_apply]

theorem pushSub_made (s : State) (p : ℕ) (c : Option Bytes) : (s.pushSub p c).made = s.made := by
  unfold State.pushSub
  split <;> rfl

theorem pushSub_eq (s : State) (p : ℕ) (c : Option Bytes) :
    s.pushSub p c = { s with streams := (s.pushSub p c).streams } := by
  unfold State.pushSub
  split <;> rfl

/-- A push goes to the viewer of the session, and to no other stream. -/
theorem pushSub_streams (s : State) (p : ℕ) (c : Option Bytes) (st : ℕ) :
    (s.pushSub p c).streams st =
      if (s.made p).sub = some st then s.streams st ++ [c] else s.streams st := by
  unfold State.pushSub
  split
  · next st' hsub =>
    simp only [State.push, Function.update_apply, hsub, Option.some.injEq, eq_comm (a := st)]
    split <;> simp_all
  · next hsub => simp [hsub]

theorem pushSub_unregister (s : State) (p : ℕ) (c : Option Bytes) (key : String) :
    (s.pushSub p c).unregister key = (s.unregister key).pushSub p c := by
  unfold State.pushSub
  simp only [State.unregister]
  split <;> rfl

theorem mem_unregister {r : String × ℕ} {key : String} :
    r ∈ (s.unregister key).sessions.rows ↔ r ∈ s.sessions.rows ∧ r.1 ≠ key := by
  simp [State.unregister, Table.mem_deleteWhere]

/-- The row of a process that lives is the one of its key. -/
theorem Sound.holds (h : Sound s) (hp : s.Live p) : s.Holds p := by
  intro r hr
  have := Table.get_eq_some.mpr ⟨h.live p hp, rfl⟩
  rw [Option.mem_def.mp hr, Option.some.injEq] at this
  rw [this]

theorem Sound.open_of_live (h : Sound s) (hp : s.Live p) : s.Open p := by
  refine Or.inr ⟨hp.2.2, ?_⟩
  by_contra hswept
  have := h.swept p (by simpa using hswept)
  simp [hp.2.1] at this

theorem Sound.not_ended (h : Sound s) (hopen : s.Open p) {st : ℕ} (hst : (s.made p).sub = some st) :
    none ∉ s.streams st := by
  rcases hopen with hnone | ⟨hgone, hswept⟩
  · simp [hnone] at hst
  · exact h.ended p st hst hgone hswept

theorem Sound.pushSub (h : Sound s) {c : Option Bytes}
    (hopen : ∀ st, (s.made p).sub = some st → none ∉ s.streams st)
    (hend : c ≠ none ∨ (s.made p).gone = true ∨ (s.made p).swept = true) :
    Sound (s.pushSub p c) := by
  rw [pushSub_eq]
  refine ⟨h.known, h.live, h.sub, ?_, h.swept, ?_⟩
  · intro q st hsub hgone hswept
    simp only [pushSub_streams]
    split
    · next hp =>
      -- the two sessions with this viewer are one
      obtain rfl : q = p := (h.sub q st hsub).2.2.symm.trans (h.sub p st hp).2.2
      have hc : c ≠ none := by
        rcases hend with hc | hg | hw
        · exact hc
        · rw [hgone] at hg
          cases hg
        · rw [hswept] at hw
          cases hw
      simp [hopen st hp, hc.symm]
    · exact h.ended q st hsub hgone hswept
  · intro st
    simp only [pushSub_streams]
    split
    · next hp =>
      rw [List.dropLast_concat]
      exact hopen st hp
    · exact h.clean st

/-- A session whose process goes on as before, with its viewer or without. -/
theorem Sound.set (h : Sound s) {x : Session} (hkey : x.key = (s.made p).key)
    (hsub : x.sub = (s.made p).sub ∨ x.sub = none) (hexited : x.exited = (s.made p).exited)
    (hkilled : x.killed = (s.made p).killed) (hswept : x.swept = (s.made p).swept)
    (hgone : x.gone = (s.made p).gone) : Sound (s.set p x) := by
  have hlive : ∀ q, (s.set p x).Live q ↔ s.Live q := by
    intro q
    simp only [State.Live, set_made]
    by_cases hq : q = p
    · simp [hq, hkilled, hgone, State.set]
    · simp [hq, State.set]
  have hsub' : ∀ q st, ((s.set p x).made q).sub = some st → (s.made q).sub = some st := by
    intro q st hst
    simp only [set_made] at hst
    split at hst
    · next hq =>
      subst hq
      rcases hsub with hsame | hnone
      · exact hsame ▸ hst
      · simp [hnone] at hst
    · exact hst
  constructor
  · intro r hr
    obtain ⟨hl, hk, he⟩ := h.known r hr
    refine ⟨(hlive _).mpr hl, ?_⟩
    simp only [set_made]
    split
    · next hq => exact ⟨by rw [hkey, ← hq, hk], by rw [hexited, ← hq, he]⟩
    · exact ⟨hk, he⟩
  · intro q hq
    have := h.live q ((hlive q).mp hq)
    simp only [set_made]
    split
    · next hqp => rwa [hkey, ← hqp]
    · exact this
  · exact fun q st hst => h.sub q st (hsub' q st hst)
  · intro q st hst hg hw
    refine h.ended q st (hsub' q st hst) ?_ ?_
    · simp only [set_made] at hg
      split at hg
      · next hq => rw [hq, ← hgone, hg]
      · exact hg
    · simp only [set_made] at hw
      split at hw
      · next hq => rw [hq, ← hswept, hw]
      · exact hw
  · intro q hq
    simp only [set_made] at hq ⊢
    split at hq
    · next hqp =>
      rw [if_pos hqp, hkilled]
      exact h.swept p (hswept ▸ hq)
    · next hqp =>
      rw [if_neg hqp]
      exact h.swept q hq
  · exact h.clean

/-- A process that is killed or has exited leaves the registry. -/
theorem Sound.retire (h : Sound s) (hholds : s.Holds p) {x : Session}
    (hsub : x.sub = (s.made p).sub)
    (hdead : x.killed = true ∨ x.gone = true) (hswept : x.swept = true → x.killed = true)
    (hkeeps : x.gone = false → x.swept = false →
      (s.made p).gone = false ∧ (s.made p).swept = false) :
    Sound ((s.set p x).unregister (s.made p).key) := by
  have hlive : ∀ q, ((s.set p x).unregister (s.made p).key).Live q → q ≠ p ∧ s.Live q := by
    rintro q ⟨hq, hk, hg⟩
    simp only [State.unregister, set_made] at hk hg
    by_cases hqp : q = p
    · simp only [hqp, if_true] at hk hg
      rcases hdead with hd | hd
      · rw [hk] at hd
        cases hd
      · rw [hg] at hd
        cases hd
    · simp only [hqp, if_false] at hk hg
      exact ⟨hqp, hq, hk, hg⟩
  have hother : ∀ r ∈ s.sessions.rows, r.1 ≠ (s.made p).key → r.2 ≠ p := by
    rintro r hr hne hrp
    exact hne (hrp ▸ (h.known r hr).2.1.symm)
  constructor
  · intro r hr
    obtain ⟨hr, hne⟩ := mem_unregister.mp hr
    obtain ⟨⟨hlt, hk, hg⟩, hkey', he⟩ := h.known r hr
    have hrp := hother r hr hne
    simp only [State.Live, State.unregister, set_made, hrp, if_false]
    exact ⟨⟨hlt, hk, hg⟩, hkey', he⟩
  · intro q hq
    obtain ⟨hqp, hq⟩ := hlive q hq
    have hrow := h.live q hq
    rw [mem_unregister]
    simp only [State.unregister, set_made, hqp, if_false]
    refine ⟨hrow, ?_⟩
    intro hsame
    exact hqp (hholds ((s.made q).key, q) (Table.get_eq_some.mpr ⟨hrow, hsame⟩))
  · intro q st hst
    simp only [State.unregister, set_made] at hst
    split at hst
    · next hqp => exact hqp ▸ h.sub p st (hsub ▸ hst)
    · exact h.sub q st hst
  · intro q st hst hg hw
    simp only [State.unregister, set_made] at hst hg hw
    split at hst
    · next hqp =>
      simp only [hqp, if_true] at hg hw
      obtain ⟨hg', hw'⟩ := hkeeps hg hw
      exact h.ended p st (hsub ▸ hst) hg' hw'
    · next hqp =>
      simp only [hqp, if_false] at hg hw
      exact h.ended q st hst hg hw
  · intro q hq
    simp only [State.unregister, set_made] at hq ⊢
    split at hq
    · next hqp =>
      rw [if_pos hqp]
      exact hswept hq
    · next hqp =>
      rw [if_neg hqp]
      exact h.swept q hq
  · exact h.clean

theorem Sound.onData (h : Sound s) (hopen : s.Open p) (buf : Bytes) : Sound (s.onData p buf) := by
  have hset : Sound (s.set p (appendRing (s.made p) buf)) :=
    h.set rfl (Or.inl rfl) rfl rfl rfl rfl
  refine hset.pushSub ?_ (Or.inl (by simp))
  intro st hst
  simp only [set_made, if_true, appendRing] at hst
  exact h.not_ended hopen hst

theorem Sound.onExit (h : Sound s) (hholds : s.Holds p) (hopen : s.Open p) :
    Sound (s.onExit p) := by
  have hset : Sound ((s.set p { s.made p with exited := true, gone := true }).unregister
      (s.made p).key) :=
    h.retire hholds rfl (Or.inr rfl) (h.swept p) (by simp)
  rw [State.onExit, pushSub_unregister]
  refine hset.pushSub ?_ (Or.inr (Or.inl (by simp [State.unregister])))
  intro st hst
  simp only [State.unregister, set_made, if_true] at hst
  exact h.not_ended hopen hst

theorem Sound.unview (h : Sound s) (st : ℕ) : Sound (s.unview st) := by
  refine h.set rfl ?_ rfl rfl rfl rfl
  dsimp only
  split
  · exact Or.inr rfl
  · exact Or.inl rfl

theorem unview_made (s : State) (st q : ℕ) : ((s.unview st).made q).key = (s.made q).key := by
  simp only [State.unview, set_made]
  split
  · next hq => rw [hq]
  · rfl

theorem Sound.close (h : Sound s) {st : ℕ} (hholds : s.Holds (s.viewers st)) :
    Sound (s.close st) := by
  refine (h.unview st).retire ?_ rfl (Or.inl rfl) (fun _ => rfl) ?_
  · intro r hr
    rw [unview_made] at hr
    exact hholds r hr
  · intro hg hw
    exact ⟨hg, hw⟩

/-- A turn of the loop, for a row that is there. -/
theorem Sound.sweep (h : Sound s) {r : String × ℕ} (hr : r ∈ s.sessions.rows) :
    Sound (s.sweep r) := by
  obtain ⟨hlive, hkey, -⟩ := h.known r hr
  have hset : Sound ((s.set r.2 { s.made r.2 with killed := true, swept := true }).unregister
      (s.made r.2).key) :=
    h.retire (h.holds hlive) rfl (Or.inl rfl) (fun _ => rfl) (by simp)
  rw [State.sweep, pushSub_unregister, ← hkey]
  refine hset.pushSub ?_ (Or.inr (Or.inr (by simp [State.unregister])))
  intro st hst
  simp only [State.unregister, set_made, if_true] at hst
  exact h.not_ended (h.open_of_live hlive) hst

theorem mem_sweep {r r' : String × ℕ} (hr : r' ∈ s.sessions.rows) (hne : r'.1 ≠ r.1) :
    r' ∈ (s.sweep r).sessions.rows := by
  rw [State.sweep, mem_unregister, pushSub_eq]
  exact ⟨hr, hne⟩

/-- The loop, over rows of distinct keys that are all there. -/
theorem Sound.foldl_sweep (rows : List (String × ℕ)) (hnodup : (rows.map Prod.fst).Nodup) :
    ∀ {s : State}, Sound s → (∀ r ∈ rows, r ∈ s.sessions.rows) →
      Sound (rows.foldl State.sweep s) := by
  induction rows with
  | nil => exact fun h _ => h
  | cons r rows ih =>
    intro s h hmem
    obtain ⟨hnotin, hrest⟩ := List.nodup_cons.mp hnodup
    refine ih hrest (h.sweep (hmem r List.mem_cons_self)) ?_
    intro r' hr'
    refine mem_sweep (hmem r' (List.mem_cons_of_mem _ hr')) ?_
    intro hsame
    exact hnotin (hsame ▸ List.mem_map_of_mem hr')

theorem Sound.kill (h : Sound s) (workspaceId : String) :
    Sound (s.killWorkspaceSessions workspaceId) := by
  refine Sound.foldl_sweep _ ?_ h fun r hr => (List.mem_filter.mp hr).1
  exact s.sessions.nodup.sublist (List.filter_sublist.map Prod.fst)

/-- A registered session has not exited. -/
theorem Sound.live?_eq (h : Sound s) (key : String) :
    s.live? key = (s.sessions.get key).map Prod.snd := by
  unfold State.live?
  split
  · next k p hget =>
    obtain ⟨hr, -⟩ := Table.get_eq_some.mp hget
    simp [(h.known _ hr).2.2, hget]
  · next hget => simp [hget]

theorem Sound.spawn (h : Sound s) {key : String} (hnone : s.live? key = none) :
    Sound (s.spawn key) := by
  have hget : s.sessions.get key = none := by
    rw [h.live?_eq, Option.map_eq_none_iff] at hnone
    exact hnone
  have hrows : ∀ r, r ∈ (s.spawn key).sessions.rows ↔
      r ∈ s.sessions.rows ∨ r = (key, s.spawned) := by
    intro r
    have hnot : key ∉ s.sessions.rows.map Prod.fst := by
      intro hk
      obtain ⟨x, hx⟩ := Table.mem_map_key.mp hk
      rw [hget] at hx
      cases hx
    simp only [State.spawn, Table.upsert, hnot, if_false, Table.mem_insertIgnore,
      not_false_eq_true, and_true]
  have hold : ∀ q, q < s.spawned → (s.spawn key).made q = s.made q := by
    intro q hq
    simp only [State.spawn, set_made]
    rw [if_neg (by omega)]
  have hnew : (s.spawn key).made s.spawned = { key := key } := by simp [State.spawn]
  constructor
  · intro r hr
    rcases (hrows r).mp hr with hr | rfl
    · obtain ⟨⟨hlt, hk, hg⟩, hkey, he⟩ := h.known r hr
      simp only [State.Live, hold r.2 hlt]
      exact ⟨⟨Nat.lt_succ_of_lt hlt, hk, hg⟩, hkey, he⟩
    · simp [State.Live, State.spawn]
  · rintro q ⟨hq, hk, hg⟩
    rw [hrows]
    rcases Nat.lt_succ_iff_lt_or_eq.mp hq with hq | rfl
    · rw [hold q hq] at hk hg ⊢
      exact Or.inl (h.live q ⟨hq, hk, hg⟩)
    · rw [hnew]
      exact Or.inr rfl
  · intro q st hst
    by_cases hq : q = s.spawned
    · rw [hq, hnew] at hst
      cases hst
    · simp only [State.spawn, set_made, hq, if_false] at hst
      obtain ⟨hlt, hrest⟩ := h.sub q st hst
      exact ⟨Nat.lt_succ_of_lt hlt, hrest⟩
  · intro q st hst hg hw
    by_cases hq : q = s.spawned
    · rw [hq, hnew] at hst
      cases hst
    · simp only [State.spawn, set_made, hq, if_false] at hst hg hw
      exact h.ended q st hst hg hw
  · intro q hq
    by_cases hqn : q = s.spawned
    · rw [hqn, hnew] at hq
      cases hq
    · simp only [State.spawn, set_made, hqn, if_false] at hq ⊢
      exact h.swept q hq
  · exact h.clean

theorem Sound.view (h : Sound s) (hp : s.Live p) (hexited : (s.made p).exited = false) :
    Sound (s.view p) := by
  have hmade : ∀ q, (s.view p).made q =
      if q = p then { s.made p with sub := some s.opened } else s.made q := by
    intro q
    simp only [State.view, set_made, pushSub_made]
  have hspawned : (s.view p).spawned = s.spawned := by
    simp only [State.view, State.set]
    rw [pushSub_eq]
  have hlive : ∀ q, (s.view p).Live q ↔ s.Live q := by
    intro q
    simp only [State.Live, hspawned, hmade]
    split
    · next hq => rw [hq]
    · rfl
  have hsessions : (s.view p).sessions = s.sessions := by
    simp only [State.view, State.set]
    rw [pushSub_eq]
  have hstreams : ∀ st, (s.view p).streams st =
      if st = s.opened then replay (s.made p)
      else if (s.made p).sub = some st then s.streams st ++ [none] else s.streams st := by
    intro st
    simp only [State.view, Function.update_apply, pushSub_streams]
  have hreplay : none ∉ replay (s.made p) := by
    simp only [replay, hexited, Bool.false_eq_true, if_false, List.append_nil]
    split <;> simp
  constructor
  · intro r hr
    rw [hsessions] at hr
    obtain ⟨hl, hkey, he⟩ := h.known r hr
    refine ⟨(hlive _).mpr hl, ?_⟩
    rw [hmade]
    split
    · next hq => exact ⟨hq ▸ hkey, hexited⟩
    · exact ⟨hkey, he⟩
  · intro q hq
    have := h.live q ((hlive q).mp hq)
    rw [hsessions, hmade]
    split
    · next hqp => exact hqp ▸ this
    · exact this
  · intro q st hst
    have hopened : (s.view p).opened = s.opened + 1 := rfl
    have hviewers : (s.view p).viewers st = if st = s.opened then p else s.viewers st := by
      simp only [State.view, Function.update_apply]
    rw [hmade] at hst
    rw [hopened, hviewers, hspawned]
    split at hst
    · next hq =>
      obtain rfl := Option.some.inj hst
      rw [if_pos rfl]
      exact ⟨hq ▸ hp.1, by omega, hq.symm⟩
    · obtain ⟨hlt, hst, hv⟩ := h.sub q st hst
      rw [if_neg (by omega)]
      exact ⟨hlt, by omega, hv⟩
  · intro q st hst hg hw
    rw [hmade] at hst hg hw
    rw [hstreams]
    split at hst
    · obtain rfl := Option.some.inj hst
      rw [if_pos rfl]
      exact hreplay
    · next hq =>
      rw [if_neg hq] at hg hw
      obtain ⟨-, hlt, hv⟩ := h.sub q st hst
      rw [if_neg (by omega), if_neg ?_]
      · exact h.ended q st hst hg hw
      · -- the viewer that is ended is the one of p
        intro hps
        exact hq (hv.symm.trans (h.sub p st hps).2.2)
  · intro q hq
    rw [hmade] at hq ⊢
    split at hq
    · next hqp =>
      rw [if_pos hqp]
      exact h.swept p hq
    · next hqp =>
      rw [if_neg hqp]
      exact h.swept q hq
  · intro st
    rw [hstreams]
    split
    · exact fun hmem => hreplay (List.mem_of_mem_dropLast hmem)
    · split
      · next hps =>
        rw [List.dropLast_concat]
        exact h.not_ended (h.open_of_live hp) hps
      · exact h.clean st

theorem step_sound {s' : State} {a : Action} (h : Sound s) (hok : Timely s a)
    (hs : step s a = some s') : Sound s' := by
  cases a with
  | attach workspaceId sessionId spawns =>
    simp only [step] at hs
    split at hs
    · next p hp =>
      rw [h.live?_eq, Option.map_eq_some_iff] at hp
      obtain ⟨r, hget, rfl⟩ := hp
      obtain ⟨hlive, -, he⟩ := h.known r (Table.get_eq_some.mp hget).1
      exact Option.some.inj hs ▸ h.view hlive he
    · next hnone =>
      rw [← Option.some.inj hs]
      split
      · refine (h.spawn hnone).view ?_ ?_
        · simp [State.Live, State.spawn]
        · simp [State.spawn]
      · exact h
  | detach st =>
    simp only [step] at hs
    split at hs
    · exact Option.some.inj hs ▸ h.unview st
    · cases hs
  | close st =>
    simp only [step] at hs
    split at hs
    · exact Option.some.inj hs ▸ h.close hok
    · cases hs
  | kill workspaceId => exact Option.some.inj hs ▸ h.kill workspaceId
  | data p buf =>
    simp only [step] at hs
    split at hs
    · exact Option.some.inj hs ▸ h.onData hok buf
    · cases hs
  | exit p =>
    simp only [step] at hs
    split at hs
    · exact Option.some.inj hs ▸ h.onExit hok.1 hok.2
    · cases hs

/-- What is registered under a key is the process of the key that lives. -/
theorem Sound.registered (h : Sound s) (key : String) :
    (s.live? key).isSome = true ↔ ∃ p, s.Live p ∧ (s.made p).key = key := by
  rw [h.live?_eq, Option.isSome_map, Option.isSome_iff_exists]
  constructor
  · rintro ⟨r, hr⟩
    obtain ⟨hr, hk⟩ := Table.get_eq_some.mp hr
    obtain ⟨hlive, hkey, -⟩ := h.known r hr
    exact ⟨r.2, hlive, hkey.trans hk⟩
  · rintro ⟨p, hp, hkey⟩
    exact ⟨_, Table.get_eq_some.mpr ⟨h.live p hp, hkey⟩⟩

end Sound

/-- In every run whose exits and closes find their key with their own process or with none, and
whose callbacks of a process that is gone find no viewer: a key has at most one live process, the
registry has exactly those, and nothing is pushed to a viewer after its end of file. -/
theorem registry_exact {actions : List Action} {s : State}
    (hrun : Transition.run step State.start actions = some s)
    (hok : Transition.Along step Timely State.start actions) :
    (∀ p q, s.Live p → s.Live q → (s.made p).key = (s.made q).key → p = q) ∧
      (∀ key, (∃ r ∈ s.sessions.get key, (s.made r.2).exited = false) ↔
        ∃ p, s.Live p ∧ (s.made p).key = key) ∧
      (∀ workspaceId sessionId, s.hasLiveSession workspaceId sessionId = true ↔
        ∃ p, s.Live p ∧ (s.made p).key = sessionKey workspaceId sessionId) ∧
      ∀ st, none ∉ (s.streams st).dropLast := by
  have h : Sound s := Transition.run_invariant_along (fun s a t h hok hs => step_sound h hok hs)
    start_sound hrun hok
  refine ⟨?_, ?_, fun w sid => h.registered _, h.clean⟩
  · intro p q hp hq hkey
    have hrow := Table.get_eq_some.mpr ⟨h.live p hp, hkey⟩
    exact (h.holds hq _ hrow)
  · intro key
    rw [← h.registered key]
    unfold State.live?
    cases s.sessions.get key with
    | none => simp
    | some r => simp

/-- A tab is opened, left, opened again with its output, and its workspace is stopped; the process
exits when nobody looks. -/
def reattached : List Action :=
  [.attach "w" "t" true, .data 0 [104, 105], .detach 0, .attach "w" "t" true, .kill "w", .detach 1,
    .data 0 [10], .exit 0]

theorem registry_exact_reattached :
    ∃ s, Transition.run step State.start reattached = some s ∧ s.spawned = 1 ∧
      s.streams 1 = [some [104, 105], none] ∧ s.hasLiveSession "w" "t" = false ∧
      ∀ st, none ∉ (s.streams st).dropLast := by
  have hrun : ∃ s, Transition.run step State.start reattached = some s ∧ s.spawned = 1 ∧
      s.streams 1 = [some [104, 105], none] ∧ s.hasLiveSession "w" "t" = false := by
    decide +kernel
  obtain ⟨s, hs, hspawned, hstream, hlive⟩ := hrun
  exact ⟨s, hs, hspawned, hstream, hlive, (registry_exact hs (by decide +kernel)).2.2.2⟩

/-- The tab is closed and opened again before its first process exits, and opened once more. -/
def lateExit : List Action :=
  [.attach "w" "t" true, .close 0, .attach "w" "t" true, .exit 0, .attach "w" "t" true]

/-- The workspace is stopped while the tab is looked at, and its process has more to say. -/
def lateData : List Action := [.attach "w" "t" true, .kill "w", .data 0 [10]]

/-- A late exit takes the key from the process that has it, so that a second claude is spawned
beside it; and a stopped workspace's viewer is sent output after its end of file. -/
theorem registry_inexact :
    (∃ s, Transition.run step State.start lateExit = some s ∧ s.Live 1 ∧ s.Live 2 ∧
        (s.made 1).key = (s.made 2).key) ∧
      ∃ s, Transition.run step State.start lateData = some s ∧
        s.streams 0 = [none, some [10]] := by
  constructor
  · have hrun : ∃ s, Transition.run step State.start lateExit = some s ∧
        (1 < s.spawned ∧ (s.made 1).killed = false ∧ (s.made 1).gone = false) ∧
        (2 < s.spawned ∧ (s.made 2).killed = false ∧ (s.made 2).gone = false) ∧
        (s.made 1).key = (s.made 2).key := by decide +kernel
    exact hrun
  · decide +kernel

end ClaudeFleet.LocalSessions
