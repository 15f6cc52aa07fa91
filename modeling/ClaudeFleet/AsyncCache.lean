import ClaudeFleet.JsMap
import ClaudeFleet.Transition

/-! The keyed cache of asynchronous reads: entries with a time to live and a horizon, computes under
way that callers share, and what takes values out again: invalidations, horizons and clearing. -/
namespace ClaudeFleet.AsyncCache
open Transition

structure Options where
  maxEntries : ℕ
  ttlMs : Option ℤ := none

/-- A value with the time it was stored at; `src` is the compute it came from. -/
structure Entry (V : Type) where
  value : V
  at_ : ℤ
  staleAt : Option ℤ
  src : ℕ

inductive Status (V : Type)
  | running
  | done (value : V)
  | failed

/-- A compute; `began` is the length of the log when it was started. -/
structure Flight (Key V : Type) where
  key : Key
  dropped : Bool := false
  staleAt : Option ℤ := none
  status : Status V := .running
  began : ℕ

/-- What takes values out of the cache. -/
inductive Event (Key : Type)
  | invalidate (key : Key)
  | clear
  | markStale (key : Key) (horizon : ℤ)

/-- A read: when it was made, how long the log was then, and the compute its value comes from. -/
structure Get (Key : Type) where
  key : Key
  time : ℤ
  issued : ℕ
  src : ℕ

/-- The cache, with every compute there has been in the order they began; beside it the clock and
the logs of what took values out and of the reads. -/
structure Cache (Key V : Type) where
  entries : JsMap Key (Entry V) := .empty
  flights : JsMap Key ℕ := .empty
  computes : List (Flight Key V) := []
  now : ℤ
  log : List (Event Key) := []
  gets : List (Get Key) := []

def minHorizon (a : Option ℤ) (b : ℤ) : ℤ := a.elim b fun a => min a b

inductive Action (Key V : Type)
  /-- A read, whose compute begins here when there is nothing to share. -/
  | get (key : Key) (t : ℤ)
  | invalidate (key : Key) (t : ℤ)
  | markStale (key : Key) (graceMs : ℤ) (t : ℤ)
  | clear (t : ℤ)
  /-- A compute gives its value, and goes on to store it. -/
  | resolve (f : ℕ) (value : V) (t : ℤ)
  /-- A compute rejects, or throws before it has become a promise. -/
  | reject (f : ℕ) (t : ℤ)

def Action.time {Key V : Type} : Action Key V → ℤ
  | .get _ t | .invalidate _ t | .markStale _ _ t | .clear t | .resolve _ _ t | .reject _ t => t

variable {Key V : Type}

def Entry.fresh (o : Options) (e : Entry V) (t : ℤ) : Bool :=
  o.ttlMs.all (fun ttl => t - e.at_ < ttl) && e.staleAt.all fun h => t < h

section
variable [DecidableEq Key]

/-- The compute a read would be answered by; none when a new one has to begin. -/
def source (o : Options) (s : Cache Key V) (key : Key) (t : ℤ) : Option ℕ :=
  match (s.entries.get? key).filter fun e => e.fresh o t with
  | some e => some e.src
  | none => s.flights.get? key

def get (o : Options) (s : Cache Key V) (key : Key) (t : ℤ) : Cache Key V :=
  match source o s key t with
  | some src => { s with gets := s.gets ++ [⟨key, t, s.log.length, src⟩] }
  | none =>
    let src := s.computes.length
    { s with
      flights := s.flights.set key src
      computes := s.computes ++ [{ key, began := s.log.length }]
      gets := s.gets ++ [⟨key, t, s.log.length, src⟩] }

/-- Some of the computes are changed. -/
def touch (computes : List (Flight Key V)) (p : ℕ → Bool) (g : Flight Key V → Flight Key V) :
    List (Flight Key V) :=
  computes.mapIdx fun f c => if p f then g c else c

def Flight.drop (c : Flight Key V) : Flight Key V := { c with dropped := true }

def invalidate (s : Cache Key V) (key : Key) : Cache Key V :=
  let s := { s with entries := s.entries.delete key, log := s.log ++ [.invalidate key] }
  match s.flights.get? key with
  | none => s
  | some f =>
    { s with computes := touch s.computes (· = f) Flight.drop, flights := s.flights.delete key }

def markStale (s : Cache Key V) (key : Key) (graceMs t : ℤ) : Cache Key V :=
  let horizon := t + graceMs
  let entries := match s.entries.get? key with
    | none => s.entries
    | some e => s.entries.set key { e with staleAt := some (minHorizon e.staleAt horizon) }
  let s := { s with entries, log := s.log ++ [.markStale key horizon] }
  match s.flights.get? key with
  | none => s
  | some f =>
    { s with
      computes := touch s.computes (· = f) fun c =>
        { c with staleAt := some (minHorizon c.staleAt horizon) } }

def clear (s : Cache Key V) : Cache Key V :=
  { s with
    computes := touch s.computes (· ∈ s.flights.rows.map Prod.snd) Flight.drop
    entries := .empty, flights := .empty, log := s.log ++ [.clear] }

/-- A compute is over: it leaves the flights where it is still the one of its key. -/
def land (s : Cache Key V) (f : ℕ) (key : Key) (status : Status V) : Cache Key V :=
  { s with
    computes := touch s.computes (· = f) fun c => { c with status }
    flights := if s.flights.get? key = some f then s.flights.delete key else s.flights }

def store (o : Options) (s : Cache Key V) (key : Key) (e : Entry V) : Cache Key V :=
  let entries := if (s.entries.get? key).isNone ∧ o.maxEntries ≤ s.entries.size then .empty
    else s.entries
  { s with entries := entries.set key e }

def resolve (o : Options) (s : Cache Key V) (f : ℕ) (c : Flight Key V) (value : V) (t : ℤ) :
    Cache Key V :=
  let s := if c.dropped then s else store o s c.key ⟨value, t, c.staleAt, f⟩
  land s f c.key (.done value)

def Status.isRunning : Status V → Bool
  | .running => true
  | .done _ | .failed => false

def running (s : Cache Key V) (f : ℕ) : Option (Flight Key V) :=
  s.computes[f]?.filter fun c => c.status.isRunning

def step (o : Options) (s : Cache Key V) (a : Action Key V) : Option (Cache Key V) :=
  if a.time < s.now then none
  else
    let s := { s with now := a.time }
    match a with
    | .get key t => some (get o s key t)
    | .invalidate key _ => some (invalidate s key)
    | .markStale key graceMs t => some (markStale s key graceMs t)
    | .clear _ => some (clear s)
    | .resolve f value t => (running s f).map fun c => resolve o s f c value t
    | .reject f _ => (running s f).map fun c => land s f c.key .failed

/-- What takes a value for the key out by a time. -/
def Event.outdates (key : Key) (t : ℤ) : Event Key → Prop
  | .invalidate k => k = key
  | .clear => True
  | .markStale k horizon => k = key ∧ horizon ≤ t

/-- A read with no fresh entry shares no compute whose horizon has passed. -/
def Punctual (o : Options) (s : Cache Key V) : Action Key V → Prop
  | .get key t => (s.entries.get? key).filter (fun e => e.fresh o t) = none →
      ∀ f c h, s.flights.get? key = some f → s.computes[f]? = some c → c.staleAt = some h → t < h
  | .invalidate _ _ | .markStale _ _ _ | .clear _ | .resolve _ _ _ | .reject _ _ => True

end

/-- An event leaves a value for the key fresh up to its horizon. -/
def Event.spares (key : Key) (staleAt : Option ℤ) : Event Key → Prop
  | .invalidate k => k ≠ key
  | .clear => False
  | .markStale k horizon => k = key → ∃ u, staleAt = some u ∧ u ≤ horizon

/-- Every event since a place in the log does. -/
def Covers (key : Key) (began : ℕ) (staleAt : Option ℤ) (log : List (Event Key)) : Prop :=
  ∀ i ev, log[i]? = some ev → began ≤ i → ev.spares key staleAt

/-- Every read is answered by a compute that began after all that had outdated the key by then. -/
structure Fresh (s : Cache Key V) : Prop where
  issued : ∀ g ∈ s.gets, g.issued ≤ s.log.length
  read : ∀ g ∈ s.gets, ∃ c, s.computes[g.src]? = some c ∧ c.key = g.key ∧
    ∀ i ev, s.log[i]? = some ev → i < g.issued → ev.outdates g.key g.time → i < c.began

variable {o : Options} {s s' : Cache Key V} {key : Key} {t : ℤ}

theorem Event.spares.not_outdates {ev : Event Key} {staleAt : Option ℤ}
    (h : ev.spares key staleAt) (ht : ∀ u, staleAt = some u → t < u) : ¬ ev.outdates key t := by
  cases ev with
  | invalidate k => exact h
  | clear => exact h.elim
  | markStale k horizon =>
    rintro ⟨hk, hpast⟩
    obtain ⟨u, hu, hle⟩ := h hk
    have := ht u hu
    omega

theorem Covers.snoc {began : ℕ} {staleAt : Option ℤ} {log : List (Event Key)} {ev : Event Key}
    (h : Covers key began staleAt log) (hev : ev.spares key staleAt) :
    Covers key began staleAt (log ++ [ev]) := by
  intro i e hi hb
  rcases List.mem_append.mp (List.mem_of_getElem? hi) with hmem | hmem
  · rcases Nat.lt_or_ge i log.length with hlt | hge
    · rw [List.getElem?_append_left hlt] at hi
      exact h i e hi hb
    · rw [List.getElem?_append_right hge, List.getElem?_singleton] at hi
      split_ifs at hi
      exact Option.some.inj hi ▸ hev
  · exact List.mem_singleton.mp hmem ▸ hev

/-- A horizon that comes nearer leaves less to be spared. -/
theorem Covers.nearer {began : ℕ} {staleAt : Option ℤ} {log : List (Event Key)} {u : ℤ}
    (h : Covers key began staleAt log) (hu : ∀ v, staleAt = some v → u ≤ v) :
    Covers key began (some u) log := by
  intro i ev hi hb
  have hev := h i ev hi hb
  cases ev with
  | invalidate k => exact hev
  | clear => exact hev
  | markStale k horizon =>
    intro hk
    obtain ⟨v, hv, hle⟩ := hev hk
    exact ⟨u, rfl, (hu v hv).trans hle⟩

theorem minHorizon_le (a : Option ℤ) (b : ℤ) : minHorizon a b ≤ b := by
  cases a with
  | none => exact le_rfl
  | some a => exact min_le_right a b

theorem minHorizon_le_of {a : Option ℤ} (b : ℤ) {v : ℤ} (h : a = some v) : minHorizon a b ≤ v := by
  subst h
  exact min_le_left v b

theorem getElem?_touch (cs : List (Flight Key V)) (p : ℕ → Bool)
    (g : Flight Key V → Flight Key V) (f : ℕ) :
    (touch cs p g)[f]? = cs[f]?.map fun c => if p f then g c else c := by
  simp [touch, List.getElem?_mapIdx]

theorem running_eq_some {f : ℕ} {c : Flight Key V} (h : running s f = some c) :
    s.computes[f]? = some c ∧ c.status.isRunning = true :=
  Option.filter_eq_some_iff.mp h

theorem touch_keeps {cs : List (Flight Key V)} {p : ℕ → Bool} {g : Flight Key V → Flight Key V}
    (hg : ∀ c, (g c).key = c.key ∧ (g c).began = c.began) {f : ℕ} {c : Flight Key V}
    (hc : cs[f]? = some c) :
    ∃ c', (touch cs p g)[f]? = some c' ∧ c'.key = c.key ∧ c'.began = c.began := by
  refine ⟨if p f then g c else c, by rw [getElem?_touch, hc]; rfl, ?_⟩
  split_ifs
  · exact hg c
  · exact ⟨rfl, rfl⟩

theorem fresh_init (t : ℤ) : Fresh ({ now := t } : Cache Key V) where
  issued _ h := absurd h List.not_mem_nil
  read _ h := absurd h List.not_mem_nil

theorem Fresh.tick (h : Fresh s) (t : ℤ) : Fresh { s with now := t } := ⟨h.issued, h.read⟩

/-- Reads stay as they were while the log grows and the computes go on. -/
theorem Fresh.keep (h : Fresh s) (evs : List (Event Key)) (hgets : s'.gets = s.gets)
    (hlog : s'.log = s.log ++ evs)
    (hc : ∀ (f : ℕ) (c : Flight Key V), s.computes[f]? = some c →
      ∃ c', s'.computes[f]? = some c' ∧ c'.key = c.key ∧ c'.began = c.began) : Fresh s' := by
  refine ⟨?_, ?_⟩
  · intro g hg
    rw [hgets] at hg
    rw [hlog, List.length_append]
    exact (h.issued g hg).trans (Nat.le_add_right _ _)
  · intro g hg
    rw [hgets] at hg
    obtain ⟨c, hcomp, hkey, hbegan⟩ := h.read g hg
    obtain ⟨c', hcomp', hkey', hbegan'⟩ := hc _ c hcomp
    refine ⟨c', hcomp', hkey'.trans hkey, fun i ev hi hissued hev => ?_⟩
    rw [hlog, List.getElem?_append_left (hissued.trans_le (h.issued g hg))] at hi
    rw [hbegan']
    exact hbegan i ev hi hissued hev

theorem Fresh.clear (h : Fresh s) : Fresh (clear s) :=
  h.keep [.clear] rfl rfl fun _ _ hc => touch_keeps (by exact fun _ => ⟨rfl, rfl⟩) hc

variable [DecidableEq Key]

structure Sound (o : Options) (s : Cache Key V) : Prop where
  flight : ∀ key f, s.flights.get? key = some f ↔ ∃ c, s.computes[f]? = some c ∧ c.key = key ∧
    c.status.isRunning = true ∧ c.dropped = false
  covered : ∀ (f : ℕ) (c : Flight Key V), s.computes[f]? = some c → c.status.isRunning = true →
    c.dropped = false → Covers c.key c.began c.staleAt s.log
  stored : ∀ key e, s.entries.get? key = some e → ∃ c, s.computes[e.src]? = some c ∧ c.key = key ∧
    c.dropped = false ∧ c.status = .done e.value ∧ Covers key c.began e.staleAt s.log
  size : s.entries.size ≤ o.maxEntries

theorem sound_init (o : Options) (t : ℤ) : Sound o ({ now := t } : Cache Key V) where
  flight _ _ := by simp
  covered _ _ h := by simp at h
  stored _ _ h := by simp at h
  size := Nat.zero_le _

theorem Sound.tick (h : Sound o s) (t : ℤ) : Sound o { s with now := t } :=
  ⟨h.flight, h.covered, h.stored, h.size⟩

/-- No other compute of the key is under way. -/
theorem Sound.sole (h : Sound o s) {f f' : ℕ} {c c' : Flight Key V}
    (hf : s.computes[f]? = some c) (hr : c.status.isRunning = true) (hd : c.dropped = false)
    (hf' : s.computes[f']? = some c') (hr' : c'.status.isRunning = true) (hd' : c'.dropped = false)
    (hkey : c.key = c'.key) : f = f' := by
  have h₁ := (h.flight c.key f).mpr ⟨c, hf, rfl, hr, hd⟩
  have h₂ := (h.flight c.key f').mpr ⟨c', hf', hkey.symm, hr', hd'⟩
  exact Option.some.inj (h₁.symm.trans h₂)

/-- What answers a read is not outdated by then, unless a shared compute is past its horizon. -/
theorem Sound.source (h : Sound o s) (hok : Punctual o s (.get key t)) {f : ℕ}
    (hf : source o s key t = some f) : ∃ c, s.computes[f]? = some c ∧ c.key = key ∧
      ∀ i ev, s.log[i]? = some ev → ev.outdates key t → i < c.began := by
  unfold AsyncCache.source at hf
  cases he : (s.entries.get? key).filter fun e => e.fresh o t with
  | some e =>
    rw [he] at hf
    obtain rfl := Option.some.inj hf
    obtain ⟨hentry, hfresh⟩ := Option.filter_eq_some_iff.mp he
    obtain ⟨c, hc, hkey, -, -, hcover⟩ := h.stored key e hentry
    refine ⟨c, hc, hkey, fun i ev hi hev => ?_⟩
    by_contra hge
    refine (hcover i ev hi (not_lt.mp hge)).not_outdates ?_ hev
    intro u hu
    simp only [Entry.fresh, hu, Option.all_some, Bool.and_eq_true, decide_eq_true_eq] at hfresh
    exact hfresh.2
  | none =>
    rw [he] at hf
    obtain ⟨c, hc, hkey, hr, hd⟩ := (h.flight key f).mp hf
    refine ⟨c, hc, hkey, fun i ev hi hev => ?_⟩
    by_contra hge
    have hspares := h.covered f c hc hr hd i ev hi (not_lt.mp hge)
    rw [hkey] at hspares
    exact hspares.not_outdates (fun u hu => hok he f c u hf hc hu) hev

theorem source_eq_none (hf : source o s key t = none) : s.flights.get? key = none := by
  unfold source at hf
  split at hf
  · cases hf
  · exact hf

/-! The steps. -/

theorem getElem?_snoc_of {α : Type} {l : List α} {n : ℕ} {x y : α} (h : l[n]? = some x) :
    (l ++ [y])[n]? = some x := by
  rw [List.getElem?_append_left (List.getElem?_eq_some_iff.mp h).1]
  exact h

theorem getElem?_snoc_cases {α : Type} {l : List α} {n : ℕ} {x y : α}
    (h : (l ++ [y])[n]? = some x) : l[n]? = some x ∨ n = l.length ∧ x = y := by
  rw [List.getElem?_append] at h
  split_ifs at h with hlt
  · exact Or.inl h
  · rw [List.getElem?_singleton] at h
    split_ifs at h with hzero
    exact Or.inr ⟨by omega, (Option.some.inj h).symm⟩

theorem Sound.get (h : Sound o s) (key : Key) (t : ℤ) : Sound o (get o s key t) := by
  unfold AsyncCache.get
  cases hsrc : AsyncCache.source o s key t with
  | some src => exact ⟨h.flight, h.covered, h.stored, h.size⟩
  | none =>
    have hnone := source_eq_none hsrc
    refine ⟨?_, ?_, ?_, h.size⟩
    · intro k f
      dsimp only
      rw [JsMap.get?_set]
      by_cases hk : k = key
      · subst hk
        rw [if_pos rfl]
        constructor
        · intro hf
          obtain rfl := Option.some.inj hf
          exact ⟨{ key := k, began := s.log.length }, by simp, rfl, rfl, rfl⟩
        · rintro ⟨c, hc, hkey, hr, hd⟩
          rcases getElem?_snoc_cases hc with hc | ⟨rfl, -⟩
          · have := (h.flight k f).mpr ⟨c, hc, hkey, hr, hd⟩
            rw [hnone] at this
            cases this
          · rfl
      · rw [if_neg hk, h.flight]
        constructor
        · rintro ⟨c, hc, hrest⟩
          exact ⟨c, getElem?_snoc_of hc, hrest⟩
        · rintro ⟨c, hc, hkey, hrest⟩
          rcases getElem?_snoc_cases hc with hc | ⟨-, rfl⟩
          · exact ⟨c, hc, hkey, hrest⟩
          · exact absurd hkey.symm hk
    · intro f c hc hr hd
      rcases getElem?_snoc_cases hc with hc | ⟨-, rfl⟩
      · exact h.covered f c hc hr hd
      · intro i ev hi hb
        exact absurd (List.getElem?_eq_some_iff.mp hi).1 (not_lt.mpr hb)
    · intro k e he
      obtain ⟨c, hc, hrest⟩ := h.stored k e he
      exact ⟨c, getElem?_snoc_of hc, hrest⟩

theorem Fresh.get (hs : Sound o s) (h : Fresh s) (hok : Punctual o s (.get key t)) :
    Fresh (get o s key t) := by
  unfold AsyncCache.get
  cases hsrc : AsyncCache.source o s key t with
  | some src =>
    refine ⟨?_, ?_⟩
    · intro g hg
      rcases List.mem_append.mp hg with hg | hg
      · exact h.issued g hg
      · rw [List.mem_singleton.mp hg]
    · intro g hg
      rcases List.mem_append.mp hg with hg | hg
      · exact h.read g hg
      · obtain rfl := List.mem_singleton.mp hg
        obtain ⟨c, hc, hkey, hbegan⟩ := hs.source hok hsrc
        exact ⟨c, hc, hkey, fun i ev hi _ hev => hbegan i ev hi hev⟩
  | none =>
    refine ⟨?_, ?_⟩
    · intro g hg
      rcases List.mem_append.mp hg with hg | hg
      · exact h.issued g hg
      · rw [List.mem_singleton.mp hg]
    · intro g hg
      rcases List.mem_append.mp hg with hg | hg
      · obtain ⟨c, hc, hrest⟩ := h.read g hg
        exact ⟨c, getElem?_snoc_of hc, hrest⟩
      · obtain rfl := List.mem_singleton.mp hg
        exact ⟨{ key, began := s.log.length }, by simp, rfl, fun i ev _ hi _ => hi⟩

theorem Sound.entry_landed (h : Sound o s) {e : Entry V} {f : ℕ} {c : Flight Key V}
    (he : s.entries.get? key = some e) (hf : s.computes[f]? = some c)
    (hr : c.status.isRunning = true) : e.src ≠ f := by
  rintro rfl
  obtain ⟨c', hc', -, -, hdone, -⟩ := h.stored key e he
  obtain rfl := Option.some.inj (hf.symm.trans hc')
  rw [hdone] at hr
  cases hr

theorem Sound.invalidate (h : Sound o s) (key : Key) : Sound o (invalidate s key) := by
  -- what is stored of other keys, or under way for them, is spared
  have hstored : ∀ k e, (s.entries.delete key).get? k = some e →
      s.entries.get? k = some e ∧ (Event.invalidate key).spares k e.staleAt := by
    intro k e he
    rw [JsMap.get?_delete] at he
    split_ifs at he with hk
    exact ⟨he, Ne.symm hk⟩
  have hsize : (s.entries.delete key).size ≤ o.maxEntries :=
    (List.length_filter_le _ _).trans h.size
  unfold AsyncCache.invalidate
  dsimp only
  cases hf : s.flights.get? key with
  | none =>
    refine ⟨h.flight, ?_, ?_, hsize⟩
    · intro f c hc hr hd
      refine (h.covered f c hc hr hd).snoc fun hk => ?_
      have := (h.flight c.key f).mpr ⟨c, hc, rfl, hr, hd⟩
      rw [← hk, hf] at this
      cases this
    · intro k e he
      obtain ⟨hold, hspare⟩ := hstored k e he
      obtain ⟨c, hc, hkey, hd, hdone, hcover⟩ := h.stored k e hold
      exact ⟨c, hc, hkey, hd, hdone, hcover.snoc hspare⟩
  | some f =>
    obtain ⟨c₀, hc₀, hkey₀, hr₀, hd₀⟩ := (h.flight key f).mp hf
    have htouch : ∀ f', (touch s.computes (· = f) Flight.drop)[f']? =
        s.computes[f']?.map fun c => if f' = f then c.drop else c := by
      intro f'
      rw [getElem?_touch]
      simp
    refine ⟨?_, ?_, ?_, hsize⟩
    · intro k f'
      dsimp only
      rw [JsMap.get?_delete, htouch]
      by_cases hff : f' = f
      · subst hff
        rw [hc₀]
        constructor
        · intro hk
          split_ifs at hk with hkey
          obtain ⟨c, hc, hkc, -⟩ := (h.flight k f').mp hk
          obtain rfl := Option.some.inj (hc₀.symm.trans hc)
          exact absurd (hkc.symm.trans hkey₀) hkey
        · rintro ⟨c, hc, -, -, hd⟩
          obtain rfl := Option.some.inj hc
          simp [Flight.drop] at hd
      · simp only [hff, if_false, Option.map_id']
        rw [← h.flight]
        split_ifs with hk
        · refine ⟨fun hnone => absurd hnone (by simp), fun hsome => ?_⟩
          rw [hk, hf] at hsome
          exact absurd (Option.some.inj hsome).symm hff
        · rfl
    · intro f' c hc hr hd
      dsimp only at hc
      rw [htouch] at hc
      by_cases hff : f' = f
      · obtain ⟨c', -, rfl⟩ := Option.map_eq_some_iff.mp hc
        simp [hff, Flight.drop] at hd
      · simp only [hff, if_false, Option.map_id'] at hc
        refine (h.covered f' c hc hr hd).snoc fun hk => hff ?_
        exact h.sole hc hr hd hc₀ hr₀ hd₀ (hk.symm.trans hkey₀.symm)
    · intro k e he
      obtain ⟨hold, hspare⟩ := hstored k e he
      obtain ⟨c, hc, hkey, hd, hdone, hcover⟩ := h.stored k e hold
      refine ⟨c, ?_, hkey, hd, hdone, hcover.snoc hspare⟩
      dsimp only
      rw [htouch, hc]
      simp [h.entry_landed hold hc₀ hr₀]

theorem Sound.markStale (h : Sound o s) (key : Key) (graceMs t : ℤ) :
    Sound o (markStale s key graceMs t) := by
  have hspares : ∀ k staleAt, k ≠ key → (Event.markStale key (t + graceMs)).spares k staleAt :=
    fun k staleAt hk heq => absurd heq.symm hk
  have hnearer : ∀ {began : ℕ} (staleAt : Option ℤ), Covers key began staleAt s.log →
      Covers key began (some (minHorizon staleAt (t + graceMs)))
        (s.log ++ [.markStale key (t + graceMs)]) := by
    intro began staleAt hcover
    refine (hcover.nearer fun v hv => minHorizon_le_of _ hv).snoc fun _ => ?_
    exact ⟨_, rfl, minHorizon_le _ _⟩
  have hstored : ∀ k e, (match s.entries.get? key with
      | none => s.entries
      | some e => s.entries.set key
        { e with staleAt := some (minHorizon e.staleAt (t + graceMs)) }).get? k = some e →
      ∃ e', s.entries.get? k = some e' ∧ e.src = e'.src ∧ e.value = e'.value ∧
        ∀ {began : ℕ}, Covers k began e'.staleAt s.log →
          Covers k began e.staleAt (s.log ++ [.markStale key (t + graceMs)]) := by
    intro k e he
    by_cases hk : k = key
    · subst hk
      cases hold : s.entries.get? k with
      | none =>
        simp only [hold] at he
        cases he
      | some e' =>
        simp only [hold, JsMap.get?_set_self] at he
        obtain rfl := Option.some.inj he
        exact ⟨e', rfl, rfl, rfl, fun hcover => hnearer e'.staleAt hcover⟩
    · have hsame : s.entries.get? k = some e := by
        cases hold : s.entries.get? key with
        | none => simpa only [hold] using he
        | some e' => simpa only [hold, JsMap.get?_set_of_ne _ _ hk] using he
      exact ⟨e, hsame, rfl, rfl, fun hcover => hcover.snoc (hspares k e.staleAt hk)⟩
  have hsize : (match s.entries.get? key with
      | none => s.entries
      | some e => s.entries.set key
        { e with staleAt := some (minHorizon e.staleAt (t + graceMs)) }).size ≤ o.maxEntries := by
    cases hold : s.entries.get? key with
    | none => exact h.size
    | some e =>
      dsimp only
      rw [JsMap.size_set, hold]
      exact h.size
  unfold AsyncCache.markStale
  dsimp only
  cases hf : s.flights.get? key with
  | none =>
    refine ⟨h.flight, ?_, ?_, hsize⟩
    · intro f c hc hr hd
      refine (h.covered f c hc hr hd).snoc (hspares _ _ fun hk => ?_)
      have := (h.flight c.key f).mpr ⟨c, hc, rfl, hr, hd⟩
      rw [hk, hf] at this
      cases this
    · intro k e he
      obtain ⟨e', he', hsrc, hvalue, hcover⟩ := hstored k e he
      obtain ⟨c, hc, hkey, hd, hdone, hold⟩ := h.stored k e' he'
      exact ⟨c, hsrc ▸ hc, hkey, hd, hvalue ▸ hdone, hcover hold⟩
  | some f =>
    obtain ⟨c₀, hc₀, hkey₀, hr₀, hd₀⟩ := (h.flight key f).mp hf
    have htouch : ∀ f', (touch s.computes (· = f) fun c =>
        { c with staleAt := some (minHorizon c.staleAt (t + graceMs)) })[f']? =
        s.computes[f']?.map fun c => if f' = f then
          { c with staleAt := some (minHorizon c.staleAt (t + graceMs)) } else c := by
      intro f'
      rw [getElem?_touch]
      simp
    refine ⟨?_, ?_, ?_, hsize⟩
    · intro k f'
      dsimp only
      rw [htouch, h.flight]
      by_cases hff : f' = f
      · subst hff
        rw [hc₀]
        constructor
        · rintro ⟨c, hc, hrest⟩
          obtain rfl := Option.some.inj hc
          exact ⟨_, rfl, by simpa using hrest⟩
        · rintro ⟨c, hc, hrest⟩
          obtain rfl := Option.some.inj hc
          exact ⟨c₀, rfl, by simpa using hrest⟩
      · simp only [hff, if_false, Option.map_id']
    · intro f' c hc hr hd
      dsimp only at hc
      rw [htouch] at hc
      by_cases hff : f' = f
      · subst hff
        rw [hc₀] at hc
        obtain rfl := Option.some.inj hc
        have hcover := h.covered f' c₀ hc₀ hr₀ hd₀
        simp only [if_true, hkey₀] at hcover ⊢
        exact hnearer c₀.staleAt hcover
      · simp only [hff, if_false, Option.map_id'] at hc
        refine (h.covered f' c hc hr hd).snoc (hspares _ _ fun hk => hff ?_)
        exact h.sole hc hr hd hc₀ hr₀ hd₀ (hk.trans hkey₀.symm)
    · intro k e he
      obtain ⟨e', he', hsrc, hvalue, hcover⟩ := hstored k e he
      obtain ⟨c, hc, hkey, hd, hdone, hold⟩ := h.stored k e' he'
      refine ⟨c, ?_, hkey, hd, hvalue ▸ hdone, hcover hold⟩
      dsimp only
      rw [htouch, hsrc, hc]
      simp [h.entry_landed he' hc₀ hr₀]

theorem Sound.clear (h : Sound o s) : Sound o (clear s) := by
  -- a compute that goes on undropped would have been among the flights
  have hnone : ∀ (f : ℕ) (c : Flight Key V), (touch s.computes (· ∈ s.flights.rows.map Prod.snd) Flight.drop)[f]? =
      some c → c.status.isRunning = true → c.dropped = false → False := by
    intro f c hc hr hd
    rw [getElem?_touch] at hc
    obtain ⟨c', hc', rfl⟩ := Option.map_eq_some_iff.mp hc
    by_cases hin : f ∈ s.flights.rows.map Prod.snd
    · simp [hin, Flight.drop] at hd
    · simp only [hin, decide_false, Bool.false_eq_true, if_false] at hr hd
      have hflight := (h.flight c'.key f).mpr ⟨c', hc', rfl, hr, hd⟩
      exact hin (List.mem_map.mpr ⟨_, JsMap.get?_eq_some.mp hflight, rfl⟩)
  refine ⟨?_, ?_, ?_, Nat.zero_le _⟩
  · intro k f
    constructor
    · intro hf
      simp [AsyncCache.clear] at hf
    · rintro ⟨c, hc, -, hr, hd⟩
      exact (hnone f c hc hr hd).elim
  · exact fun f c hc hr hd => (hnone f c hc hr hd).elim
  · intro k e he
    simp [AsyncCache.clear] at he

theorem getElem?_land (s : Cache Key V) (f : ℕ) (key : Key) (status : Status V) (f' : ℕ) :
    (land s f key status).computes[f']? =
      s.computes[f']?.map fun c => if f' = f then { c with status } else c := by
  unfold land
  dsimp only
  rw [getElem?_touch]
  simp

theorem Sound.land (h : Sound o s) {f : ℕ} {c : Flight Key V} (hrun : running s f = some c)
    {status : Status V} (hover : status.isRunning = false) :
    Sound o (land s f c.key status) := by
  obtain ⟨hc, hr⟩ := running_eq_some hrun
  refine ⟨?_, ?_, ?_, h.size⟩
  · intro k f'
    rw [getElem?_land]
    by_cases hff : f' = f
    · subst hff
      rw [hc]
      constructor
      · intro hk
        simp only [AsyncCache.land] at hk
        split_ifs at hk with hown
        · rw [JsMap.get?_delete] at hk
          split_ifs at hk with hkey
          obtain ⟨c', hc', hkey', -⟩ := (h.flight k f').mp hk
          obtain rfl := Option.some.inj (hc.symm.trans hc')
          exact absurd hkey'.symm hkey
        · obtain ⟨c', hc', hkey', -⟩ := (h.flight k f').mp hk
          obtain rfl := Option.some.inj (hc.symm.trans hc')
          exact absurd (hkey' ▸ hk) hown
      · rintro ⟨c', hc', -, hr', -⟩
        obtain rfl := Option.some.inj hc'
        simp [hover] at hr'
    · simp only [hff, if_false, Option.map_id']
      rw [← h.flight]
      simp only [AsyncCache.land]
      split_ifs with hown
      · rw [JsMap.get?_delete]
        split_ifs with hkey
        · refine ⟨fun hnone => absurd hnone (by simp), fun hsome => ?_⟩
          rw [hkey, hown] at hsome
          exact absurd (Option.some.inj hsome).symm hff
        · rfl
      · rfl
  · intro f' c' hc' hr' hd'
    rw [getElem?_land] at hc'
    obtain ⟨c₁, hc₁, rfl⟩ := Option.map_eq_some_iff.mp hc'
    by_cases hff : f' = f
    · simp [hff, hover] at hr'
    · simp only [hff, if_false] at hr' hd' ⊢
      exact h.covered f' c₁ hc₁ hr' hd'
  · intro k e he
    obtain ⟨c', hc', hkey, hd, hdone, hcover⟩ := h.stored k e he
    refine ⟨c', ?_, hkey, hd, hdone, hcover⟩
    rw [getElem?_land, hc']
    simp [h.entry_landed he hc hr]

theorem Sound.store (hmax : 1 ≤ o.maxEntries) (h : Sound o s) {e : Entry V} {c : Flight Key V}
    (hc : s.computes[e.src]? = some c) (hkey : c.key = key) (hd : c.dropped = false)
    (hdone : c.status = .done e.value) (hcover : Covers key c.began e.staleAt s.log) :
    Sound o (store o s key e) := by
  have hkept : ∀ k e', (if (s.entries.get? key).isNone ∧ o.maxEntries ≤ s.entries.size then
      .empty else s.entries : JsMap Key (Entry V)).get? k = some e' →
      s.entries.get? k = some e' := by
    intro k e' he'
    split_ifs at he'
    · simp at he'
    · exact he'
  refine ⟨h.flight, h.covered, ?_, ?_⟩
  · intro k e' he'
    simp only [AsyncCache.store] at he'
    by_cases hk : k = key
    · subst hk
      rw [JsMap.get?_set_self] at he'
      obtain rfl := Option.some.inj he'
      exact ⟨c, hc, hkey, hd, hdone, hcover⟩
    · rw [JsMap.get?_set_of_ne _ _ hk] at he'
      exact h.stored k e' (hkept k e' he')
  · simp only [AsyncCache.store]
    rw [JsMap.size_set]
    split_ifs with hclear hnone hnone
    · exact hmax
    · exact (Nat.zero_le _)
    · have hroom : s.entries.size < o.maxEntries := by
        by_contra hfull
        exact hclear ⟨hnone, not_lt.mp hfull⟩
      exact hroom
    · exact h.size

theorem Sound.resolve (hmax : 1 ≤ o.maxEntries) (h : Sound o s) {f : ℕ} {c : Flight Key V}
    (hrun : running s f = some c) (value : V) (t : ℤ) : Sound o (resolve o s f c value t) := by
  have hlanded : Sound o (AsyncCache.land s f c.key (.done value)) := h.land hrun rfl
  obtain ⟨hc, hr⟩ := running_eq_some hrun
  unfold AsyncCache.resolve
  cases hd : c.dropped with
  | true => exact hlanded
  | false =>
    have hc' : (AsyncCache.land s f c.key (.done value)).computes[f]? =
        some { c with status := .done value } := by
      rw [getElem?_land, hc]
      simp
    have hstored : Sound o (AsyncCache.store o (AsyncCache.land s f c.key (.done value)) c.key
        ⟨value, t, c.staleAt, f⟩) :=
      hlanded.store hmax hc' rfl hd rfl (h.covered f c hc hr hd)
    exact hstored

theorem Fresh.invalidate (h : Fresh s) (key : Key) : Fresh (invalidate s key) := by
  unfold AsyncCache.invalidate
  dsimp only
  split
  · exact h.keep [.invalidate key] rfl rfl fun f c hc => ⟨c, hc, rfl, rfl⟩
  · exact h.keep [.invalidate key] rfl rfl fun f c hc => touch_keeps (by exact fun _ => ⟨rfl, rfl⟩) hc

theorem Fresh.markStale (h : Fresh s) (key : Key) (graceMs t : ℤ) :
    Fresh (markStale s key graceMs t) := by
  unfold AsyncCache.markStale
  dsimp only
  split
  · exact h.keep [.markStale key (t + graceMs)] rfl rfl fun f c hc => ⟨c, hc, rfl, rfl⟩
  · exact h.keep [.markStale key (t + graceMs)] rfl rfl fun f c hc =>
      touch_keeps (by exact fun _ => ⟨rfl, rfl⟩) hc

theorem Fresh.land (h : Fresh s) (f : ℕ) (key : Key) (status : Status V) :
    Fresh (land s f key status) :=
  h.keep [] rfl (List.append_nil _).symm fun _ _ hc => touch_keeps (by exact fun _ => ⟨rfl, rfl⟩) hc

theorem Fresh.resolve (h : Fresh s) (f : ℕ) (c : Flight Key V) (value : V) (t : ℤ) :
    Fresh (resolve o s f c value t) := by
  unfold AsyncCache.resolve
  dsimp only
  split_ifs
  · exact h.land f c.key _
  · have hstored : Fresh (store o s c.key ⟨value, t, c.staleAt, f⟩) := ⟨h.issued, h.read⟩
    exact hstored.land f c.key _

theorem step_fresh {a : Action Key V} (hmax : 1 ≤ o.maxEntries) (h : Sound o s ∧ Fresh s)
    (hok : Punctual o s a) (hs : step o s a = some s') : Sound o s' ∧ Fresh s' := by
  have hsound := h.1.tick a.time
  have hfresh := h.2.tick a.time
  unfold step at hs
  split_ifs at hs
  cases a with
  | get key t =>
    obtain rfl := Option.some.inj hs
    exact ⟨hsound.get key t, Fresh.get hsound hfresh hok⟩
  | invalidate key t =>
    obtain rfl := Option.some.inj hs
    exact ⟨hsound.invalidate key, hfresh.invalidate key⟩
  | markStale key graceMs t =>
    obtain rfl := Option.some.inj hs
    exact ⟨hsound.markStale key graceMs t, hfresh.markStale key graceMs t⟩
  | clear t =>
    obtain rfl := Option.some.inj hs
    exact ⟨hsound.clear, hfresh.clear⟩
  | resolve f value t =>
    obtain ⟨c, hrun, rfl⟩ := Option.map_eq_some_iff.mp hs
    exact ⟨hsound.resolve hmax hrun value t, hfresh.resolve f c value t⟩
  | reject f t =>
    obtain ⟨c, hrun, rfl⟩ := Option.map_eq_some_iff.mp hs
    exact ⟨hsound.land hrun rfl, hfresh.land f c.key _⟩

/-- In every order of the operations and of the computes' ends, while no read shares a compute past
its horizon: a read is answered by a compute that began after all that had outdated its key, one
compute of a key is under way undropped, only what such a compute gives is stored, and the entries
stay within their number. -/
theorem reads_fresh (o : Options) (hmax : 1 ≤ o.maxEntries) (t₀ : ℤ) (as : List (Action Key V))
    (s : Cache Key V) (hr : run (step o) { now := t₀ } as = some s)
    (hok : Along (step o) (Punctual o) { now := t₀ } as) :
    (∀ g ∈ s.gets, ∃ c, s.computes[g.src]? = some c ∧ c.key = g.key ∧
      ∀ i ev, s.log[i]? = some ev → i < g.issued → ev.outdates g.key g.time → i < c.began) ∧
    (∀ (f f' : ℕ) (c c' : Flight Key V), s.computes[f]? = some c → s.computes[f']? = some c' →
      c.status.isRunning = true → c'.status.isRunning = true → c.dropped = false →
      c'.dropped = false → c.key = c'.key → f = f') ∧
    (∀ key e, s.entries.get? key = some e → ∃ c, s.computes[e.src]? = some c ∧ c.key = key ∧
      c.dropped = false ∧ c.status = .done e.value) ∧
    s.entries.size ≤ o.maxEntries := by
  have h : Sound o s ∧ Fresh s :=
    run_invariant_along (fun _ _ _ h hp hs => step_fresh hmax h hp hs)
      ⟨sound_init o t₀, fresh_init t₀⟩ hr hok
  refine ⟨h.2.read, ?_, ?_, h.1.size⟩
  · intro f f' c c' hc hc' hrun hrun' hd hd' hkey
    exact h.1.sole hc hrun hd hc' hrun' hd' hkey
  · intro key e he
    obtain ⟨c, hc, hkey, hd, hdone, -⟩ := h.1.stored key e he
    exact ⟨c, hc, hkey, hd, hdone⟩

instance (s : Cache Key V) (a : Action Key V) : Decidable (Punctual o s a) :=
  match a with
  | .get key t =>
    decidable_of_iff (((s.entries.get? key).filter fun e => e.fresh o t).isNone = true →
      ∀ f ∈ s.flights.get? key, ∀ c ∈ s.computes[f]?, ∀ h ∈ c.staleAt, t < h) (by
        simp only [Option.isNone_iff_eq_none]
        exact ⟨fun h he f c u hf hc hu => h he f hf c hc u hu,
          fun h he f hf c hc u hu => h he f c u hf hc hu⟩)
  | .invalidate _ _ | .markStale _ _ _ | .clear _ | .resolve _ _ _ | .reject _ _ => isTrue trivial

/-- A value is read, kept up to a horizon and read anew past it. -/
def debounced : List (Action Bool ℕ) :=
  [.get true 0, .get true 1, .resolve 0 7 2, .markStale true 10 3, .get true 12, .get true 13,
    .resolve 1 8 14, .get true 15]

theorem debounced_fresh : ∃ s, run (step ⟨8, none⟩) { now := 0 } debounced = some s ∧
    ∀ g ∈ s.gets, ∃ c, s.computes[g.src]? = some c ∧ c.key = g.key ∧
      ∀ i ev, s.log[i]? = some ev → i < g.issued → ev.outdates g.key g.time → i < c.began := by
  have hsome : (run (step ⟨8, none⟩) { now := 0 } debounced).isSome = true := by decide +kernel
  obtain ⟨s, hs⟩ := Option.isSome_iff_exists.mp hsome
  exact ⟨s, hs, (reads_fresh ⟨8, none⟩ (by decide) 0 debounced s hs (by decide +kernel)).1⟩

/-- A compute begins, its key is marked stale in 1 ms, and a read 5 ms later shares it. -/
def shared : List (Action Bool ℕ) := [.get true 0, .markStale true 1 0, .get true 5]

theorem shared_outdated : ∃ s, run (step ⟨8, none⟩) { now := 0 } shared = some s ∧
    ∃ g ∈ s.gets, ∃ c, s.computes[g.src]? = some c ∧ ∃ i ev, s.log[i]? = some ev ∧
      i < g.issued ∧ ev.outdates g.key g.time ∧ ¬ i < c.began :=
  ⟨_, rfl, ⟨true, 5, 1, 0⟩, List.mem_of_getElem? (i := 1) rfl, _, rfl, 0, .markStale true 1, rfl, by decide,
    ⟨rfl, by decide⟩, by decide⟩

end ClaudeFleet.AsyncCache
