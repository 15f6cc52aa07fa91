import ClaudeFleet.JsMap
import ClaudeFleet.Numbered
import ClaudeFleet.Transition

/-! The two caches in front of the identity provider: one of accepted tokens, which shares the calls
under way, and around it one of rejected tokens; and what a peek at both tells. -/
namespace ClaudeFleet.VerifyCaches
open Transition

inductive IdentityErrorKind
  | unauthorized
  | forbidden
  | machineUnknown
  | network
  | upstream
  deriving DecidableEq

/-- What the provider answers: an identity, an error of its own, or any other one. -/
inductive Answer (Identity : Type)
  | ok (identity : Identity)
  | error (kind : IdentityErrorKind)
  | failed
  deriving DecidableEq

def Answer.isOk {Identity : Type} : Answer Identity → Bool
  | .ok _ => true
  | .error _ | .failed => false

/-- A call of the provider: under way, answered, or settled for those who wait for it, which is
after it has left the calls in flight. -/
inductive Phase (Identity : Type)
  | pending
  | answered (a : Answer Identity)
  | settled (a : Answer Identity)
  deriving DecidableEq

def Phase.inFlight {Identity : Type} : Phase Identity → Bool
  | .pending | .answered _ => true
  | .settled _ => false

structure Hit (Identity : Type) where
  identity : Identity
  expiresAt : ℕ

/-- Times are milliseconds since the epoch. -/
structure Options (Token Key : Type) where
  keyOf : Token → Key
  ttl : ℕ
  max : ℕ
  negativeTtl : ℕ
  negativeMax : ℕ

/-- The caches, the calls ever made in their order, and for each verification that waits the number
of the call it waits for; beside them every answer there has been. -/
structure State (Key Identity : Type) where
  hits : JsMap Key (Hit Identity) := .empty
  inflight : JsMap Key ℕ := .empty
  rejected : JsMap Key ℕ := .empty
  calls : List (Key × Phase Identity) := []
  waiting : List ℕ := []
  answers : List (Key × Answer Identity) := []

inductive PeekResult
  | valid
  | rejected
  | miss
  deriving DecidableEq

/-- How a verification begins: it is refused or answered out of a cache, or waits for a call. -/
inductive Begun (Identity : Type)
  | refused
  | resolved (identity : Identity)
  | waits (call : ℕ)
  deriving DecidableEq

theorem getElem?_append_pending {Key Identity : Type} {calls : List (Key × Phase Identity)}
    {key k : Key} {call : ℕ} {phase : Phase Identity} (h : (calls ++ [(key, .pending)])[call]? = some (k, phase))
    (hp : phase ≠ .pending) : calls[call]? = some (k, phase) := by
  rcases List.mem_append.mp (List.mem_of_getElem? h) with hmem | hmem
  · rw [List.getElem?_append] at h
    split_ifs at h with hlt
    · exact h
    · rw [List.getElem?_singleton] at h
      split_ifs at h
      exact absurd (Prod.ext_iff.mp (Option.some.inj h)).2.symm hp
  · exact absurd (Prod.ext_iff.mp (List.mem_singleton.mp hmem)).2 hp

variable {Token Key Identity : Type} [DecidableEq Key]

def liveHit (s : State Key Identity) (key : Key) (now : ℕ) : Option Identity :=
  (s.hits.get? key).bind fun hit => if now < hit.expiresAt then some hit.identity else none

def isRejected (s : State Key Identity) (key : Key) (now : ℕ) : Bool :=
  decide (now < (s.rejected.get? key).getD 0)

/-- The two caches may go by clocks of their own. -/
def peek (o : Options Token Key) (s : State Key Identity) (token : Token) (now negativeNow : ℕ) :
    PeekResult :=
  let key := o.keyOf token
  if (liveHit s key now).isSome then .valid
  else if isRejected s key negativeNow then .rejected
  else .miss

/-- The inner cache. -/
def verifyCached (s : State Key Identity) (key : Key) (now : ℕ) :
    State Key Identity × Begun Identity :=
  match liveHit s key now with
  | some identity => (s, .resolved identity)
  | none =>
    let s := { s with hits := s.hits.delete key }
    match s.inflight.get? key with
    | some call => ({ s with waiting := s.waiting ++ [call] }, .waits call)
    | none =>
      let call := s.calls.length
      ({ s with
          calls := s.calls ++ [(key, .pending)], inflight := s.inflight.set key call
          waiting := s.waiting ++ [call] }, .waits call)

def verify (o : Options Token Key) (s : State Key Identity) (token : Token)
    (now negativeNow : ℕ) : State Key Identity × Begun Identity :=
  let key := o.keyOf token
  match s.rejected.get? key with
  | none => verifyCached s key now
  | some until_ =>
    let s := { s with rejected := s.rejected.delete key }
    if negativeNow < until_ then ({ s with rejected := s.rejected.set key until_ }, .refused)
    else verifyCached s key now

/-- A call is answered: what it accepts is kept. -/
def answer (o : Options Token Key) (s : State Key Identity) (call : ℕ) (key : Key)
    (a : Answer Identity) (now : ℕ) : State Key Identity :=
  let s := { s with
    calls := s.calls.set call (key, .answered a), answers := s.answers ++ [(key, a)] }
  match a with
  | .ok identity =>
    let hits := if o.max ≤ s.hits.size then s.hits.dropFirst else s.hits
    { s with hits := hits.set key ⟨identity, now + o.ttl⟩ }
  | .error _ | .failed => s

/-- The call leaves the calls in flight, and those who wait for it will continue. -/
def settle (s : State Key Identity) (call : ℕ) (key : Key) (a : Answer Identity) :
    State Key Identity :=
  { s with calls := s.calls.set call (key, .settled a), inflight := s.inflight.delete key }

/-- A verification that waited continues: a token that was called unauthorized is kept. -/
def resume (o : Options Token Key) (s : State Key Identity) (i : ℕ) (key : Key)
    (a : Answer Identity) (negativeNow : ℕ) : State Key Identity :=
  let s := { s with waiting := s.waiting.eraseIdx i }
  match a with
  | .error .unauthorized =>
    let rejected := if o.negativeMax ≤ s.rejected.size then s.rejected.dropFirst else s.rejected
    { s with rejected := rejected.set key (negativeNow + o.negativeTtl) }
  | _ => s

inductive Action (Token Identity : Type)
  | verify (token : Token) (now negativeNow : ℕ)
  | answer (call : ℕ) (a : Answer Identity) (now : ℕ)
  | settle (call : ℕ)
  | resume (i : ℕ) (negativeNow : ℕ)

def step (o : Options Token Key) (s : State Key Identity) :
    Action Token Identity → Option (State Key Identity)
  | .verify token now negativeNow => some (verify o s token now negativeNow).1
  | .answer call a now =>
    match s.calls[call]? with
    | some (key, .pending) => some (answer o s call key a now)
    | _ => none
  | .settle call =>
    match s.calls[call]? with
    | some (key, .answered a) => some (settle s call key a)
    | _ => none
  | .resume i negativeNow =>
    match (s.waiting[i]?).bind fun call => s.calls[call]? with
    | some (key, .settled a) => some (resume o s i key a negativeNow)
    | _ => none

/-- A verification of the token would call the provider anew. -/
def callsAnew (o : Options Token Key) (s : State Key Identity) (token : Token)
    (now negativeNow : ℕ) : Prop :=
  (∀ until_, s.rejected.get? (o.keyOf token) = some until_ → until_ ≤ negativeNow) ∧
    liveHit s (o.keyOf token) now = none ∧ s.inflight.get? (o.keyOf token) = none

/-- No call is made anew for a token that an earlier call has found unauthorized while one who
waited for that call has yet to continue. -/
def Calm (o : Options Token Key) (s : State Key Identity) : Action Token Identity → Prop
  | .verify token now negativeNow => callsAnew o s token now negativeNow →
      ∀ call ∈ s.waiting, s.calls[call]? ≠ some (o.keyOf token, .settled (.error .unauthorized))
  | .answer _ _ _ | .settle _ | .resume _ _ => True

/-! What a step can do. -/

variable {o : Options Token Key} {s s' : State Key Identity} {key : Key} {token : Token}
  {now negativeNow : ℕ}

theorem liveHit_eq_some {identity : Identity} (h : liveHit s key now = some identity) :
    ∃ hit, s.hits.get? key = some hit ∧ hit.identity = identity := by
  obtain ⟨hit, hhit, hlive⟩ := Option.bind_eq_some_iff.mp h
  split_ifs at hlive
  exact ⟨hit, hhit, Option.some.inj hlive⟩

/-- The ways a verification begins, with what is left of the caches. -/
theorem verify_cases (o : Options Token Key) (s : State Key Identity) (token : Token)
    (now negativeNow : ℕ) :
    (∃ until_, s.rejected.get? (o.keyOf token) = some until_ ∧ negativeNow < until_ ∧
      verify o s token now negativeNow =
        ({ s with
          rejected := (s.rejected.delete (o.keyOf token)).set (o.keyOf token) until_ }, .refused)) ∨
    ∃ rejected : JsMap Key ℕ,
      rejected = (if s.rejected.get? (o.keyOf token) = none then s.rejected
        else s.rejected.delete (o.keyOf token)) ∧
      (∀ until_, s.rejected.get? (o.keyOf token) = some until_ → until_ ≤ negativeNow) ∧
      verify o s token now negativeNow = verifyCached { s with rejected } (o.keyOf token) now := by
  unfold verify
  dsimp only
  cases hr : s.rejected.get? (o.keyOf token) with
  | none => exact Or.inr ⟨s.rejected, by simp, by simp, rfl⟩
  | some until_ =>
    by_cases hlive : negativeNow < until_
    · exact Or.inl ⟨until_, rfl, hlive, by simp [hlive]⟩
    · refine Or.inr ⟨s.rejected.delete (o.keyOf token), by simp, ?_, by simp [hlive]⟩
      intro u hu
      exact Option.some.inj hu ▸ not_lt.mp hlive

/-- What the two caches and the calls keep to: a key is in one cache at most, and a token that will
still be remembered as rejected is in neither cache and not asked for anew. -/
structure Sound (s : State Key Identity) : Prop where
  flight : ∀ key (call : ℕ), s.inflight.get? key = some call ↔
    ∃ phase, s.calls[call]? = some (key, phase) ∧ phase.inFlight = true
  apart : ∀ key, s.hits.get? key ≠ none → s.rejected.get? key = none
  pending : ∀ (call : ℕ) key, s.calls[call]? = some (key, Phase.pending) →
    s.hits.get? key = none ∧ s.rejected.get? key = none
  answered : ∀ (call : ℕ) key (a : Answer Identity), s.calls[call]? = some (key, Phase.answered a) →
    s.rejected.get? key = none ∧ (a.isOk = false → s.hits.get? key = none)
  due : ∀ call ∈ s.waiting, ∀ key,
    s.calls[call]? = some (key, Phase.settled (.error .unauthorized)) →
      s.hits.get? key = none ∧ s.inflight.get? key = none
  known : ∀ call ∈ s.waiting, call < s.calls.length

theorem sound_init : Sound ({} : State Key Identity) where
  flight _ _ := by simp
  apart _ h := absurd rfl h
  pending _ _ h := by simp at h
  answered _ _ _ h := by simp at h
  due _ h := absurd h List.not_mem_nil
  known _ h := absurd h List.not_mem_nil

/-- Entries may leave the caches. -/
theorem Sound.forget (h : Sound s) (hits : JsMap Key (Hit Identity)) (rejected : JsMap Key ℕ)
    (hhits : ∀ key, s.hits.get? key = none → hits.get? key = none)
    (hrejected : ∀ key, s.rejected.get? key = none → rejected.get? key = none) :
    Sound { s with hits, rejected } where
  flight := h.flight
  apart key hkey := hrejected key (h.apart key fun hnone => hkey (hhits key hnone))
  pending call key hcall := (h.pending call key hcall).imp (hhits key) (hrejected key)
  answered call key a hcall := by
    have hold := h.answered call key a hcall
    exact ⟨hrejected key hold.1, fun ha => hhits key (hold.2 ha)⟩
  due call hcall key hkey := (h.due call hcall key hkey).imp (hhits key) id
  known := h.known

theorem Sound.flight_unique (h : Sound s) {call call' : ℕ} {phase phase' : Phase Identity}
    (hc : s.calls[call]? = some (key, phase)) (hp : phase.inFlight = true)
    (hc' : s.calls[call']? = some (key, phase')) (hp' : phase'.inFlight = true) : call = call' := by
  have h₁ := (h.flight key call).mpr ⟨phase, hc, hp⟩
  have h₂ := (h.flight key call').mpr ⟨phase', hc', hp'⟩
  exact Option.some.inj (h₁.symm.trans h₂)

/-- A verification joins a call in flight. -/
theorem Sound.join (h : Sound s) {call : ℕ} (hin : s.inflight.get? key = some call) :
    Sound { s with waiting := s.waiting ++ [call] } where
  flight := h.flight
  apart := h.apart
  pending := h.pending
  answered := h.answered
  due c hc k hk := by
    rcases List.mem_append.mp hc with hc | hc
    · exact h.due c hc k hk
    · -- the call joined is in flight, not settled
      obtain rfl := List.mem_singleton.mp hc
      obtain ⟨phase, hphase, hflight⟩ := (h.flight key c).mp hin
      obtain ⟨-, rfl⟩ := Prod.ext_iff.mp (Option.some.inj (hphase.symm.trans hk))
      cases hflight
  known c hc := by
    rcases List.mem_append.mp hc with hc | hc
    · exact h.known c hc
    · obtain rfl := List.mem_singleton.mp hc
      obtain ⟨phase, hphase, -⟩ := (h.flight key c).mp hin
      exact (List.getElem?_eq_some_iff.mp hphase).1

/-- A call is made for a key that is in no cache and that no one has yet to be told is rejected. -/
theorem Sound.call (h : Sound s) (hin : s.inflight.get? key = none)
    (hhit : s.hits.get? key = none) (hrej : s.rejected.get? key = none)
    (hdue : ∀ call ∈ s.waiting,
      s.calls[call]? ≠ some (key, Phase.settled (.error .unauthorized))) :
    Sound { s with
      calls := s.calls ++ [(key, .pending)], inflight := s.inflight.set key s.calls.length
      waiting := s.waiting ++ [s.calls.length] } := by
  have hold : ∀ {call : ℕ} {k : Key} {phase : Phase Identity},
      (s.calls ++ [(key, Phase.pending)])[call]? = some (k, phase) →
        s.calls[call]? = some (k, phase) ∨
          call = s.calls.length ∧ k = key ∧ phase = Phase.pending := by
    intro call k phase hcall
    rcases Nat.lt_or_ge call s.calls.length with hlt | hge
    · rw [List.getElem?_append_left hlt] at hcall
      exact Or.inl hcall
    · rw [List.getElem?_append_right hge, List.getElem?_singleton] at hcall
      split_ifs at hcall with hzero
      obtain ⟨rfl, rfl⟩ := Prod.ext_iff.mp (Option.some.inj hcall)
      exact Or.inr ⟨by omega, rfl, rfl⟩
  have hkeep : ∀ {call : ℕ} {x : Key × Phase Identity}, s.calls[call]? = some x →
      (s.calls ++ [(key, Phase.pending)])[call]? = some x := by
    intro call x hx
    rw [List.getElem?_append_left (List.getElem?_eq_some_iff.mp hx).1]
    exact hx
  refine ⟨?_, h.apart, ?_, ?_, ?_, ?_⟩
  · intro k call
    rw [JsMap.get?_set]
    by_cases hk : k = key
    · subst hk
      rw [if_pos rfl]
      constructor
      · intro hcall
        obtain rfl := Option.some.inj hcall
        exact ⟨.pending, by simp, rfl⟩
      · rintro ⟨phase, hcall, hflight⟩
        rcases hold hcall with hcall | ⟨rfl, -, -⟩
        · have := (h.flight k call).mpr ⟨phase, hcall, hflight⟩
          rw [hin] at this
          cases this
        · rfl
    · rw [if_neg hk, h.flight]
      constructor
      · rintro ⟨phase, hcall, hflight⟩
        exact ⟨phase, hkeep hcall, hflight⟩
      · rintro ⟨phase, hcall, hflight⟩
        rcases hold hcall with hcall | ⟨-, rfl, -⟩
        · exact ⟨phase, hcall, hflight⟩
        · exact absurd rfl hk
  · intro call k hcall
    rcases hold hcall with hcall | ⟨-, rfl, -⟩
    · exact h.pending call k hcall
    · exact ⟨hhit, hrej⟩
  · intro call k a hcall
    rcases hold hcall with hcall | ⟨-, -, hphase⟩
    · exact h.answered call k a hcall
    · cases hphase
  · intro call hcall k hk
    rcases hold hk with hk | ⟨-, -, hphase⟩
    · rcases List.mem_append.mp hcall with hw | hw
      · have hne : k ≠ key := fun heq => hdue call hw (heq ▸ hk)
        have hold := h.due call hw k hk
        exact ⟨hold.1, (JsMap.get?_set_of_ne _ _ hne).trans hold.2⟩
      · obtain rfl := List.mem_singleton.mp hw
        simp at hk
    · cases hphase
  · intro call hcall
    rw [List.length_append]
    rcases List.mem_append.mp hcall with hcall | hcall
    · exact (h.known call hcall).trans (Nat.lt_succ_self _)
    · obtain rfl := List.mem_singleton.mp hcall
      exact Nat.lt_succ_self _

theorem Sound.verifyCached (h : Sound s) (hrej : s.rejected.get? key = none)
    (hdue : liveHit s key now = none → s.inflight.get? key = none → ∀ call ∈ s.waiting,
      s.calls[call]? ≠ some (key, Phase.settled (.error .unauthorized))) :
    Sound (verifyCached s key now).1 := by
  unfold VerifyCaches.verifyCached
  cases hlive : liveHit s key now with
  | some identity => exact h
  | none =>
    have hforget : Sound { s with hits := s.hits.delete key } :=
      h.forget (s.hits.delete key) s.rejected (fun k hk => JsMap.delete_none hk key) fun _ => id
    dsimp only
    cases hin : s.inflight.get? key with
    | some call => exact hforget.join hin
    | none =>
      exact hforget.call hin (JsMap.get?_delete_self _ _) hrej (hdue hlive hin)

theorem Sound.verify (h : Sound s) (hok : Calm o s (.verify token now negativeNow)) :
    Sound (verify o s token now negativeNow).1 := by
  rcases verify_cases o s token now negativeNow with
    ⟨until_, hkept, -, heq⟩ | ⟨rejected, hrejected, hexpired, heq⟩
  · rw [heq]
    refine h.forget s.hits _ (fun _ => id) fun k hk => ?_
    have hne : k ≠ o.keyOf token := by
      rintro rfl
      simp [hkept] at hk
    rw [JsMap.get?_set_of_ne _ _ hne]
    exact JsMap.delete_none hk _
  · rw [heq]
    have hgone : rejected.get? (o.keyOf token) = none := by
      subst hrejected
      split_ifs with hnone
      · exact hnone
      · exact JsMap.get?_delete_self _ _
    have hless : ∀ k, s.rejected.get? k = none → rejected.get? k = none := by
      intro k hk
      subst hrejected
      split_ifs
      · exact hk
      · exact JsMap.delete_none hk _
    exact (h.forget s.hits rejected (fun _ => id) hless).verifyCached hgone
      fun hlive hin => hok ⟨hexpired, hlive, hin⟩

theorem Sound.answer (h : Sound s) {call : ℕ} (hcall : s.calls[call]? = some (key, Phase.pending))
    (a : Answer Identity) : Sound (answer o s call key a now) := by
  have hlt : call < s.calls.length := (List.getElem?_eq_some_iff.mp hcall).1
  have hclear := h.pending call key hcall
  have hflight : ∀ k c, s.inflight.get? k = some c ↔ ∃ phase : Phase Identity,
      (s.calls.set call (key, .answered a))[c]? = some (k, phase) ∧ phase.inFlight = true := by
    intro k c
    rw [h.flight]
    by_cases hc : call = c
    · subst hc
      rw [List.getElem?_set_self hlt, hcall]
      constructor
      · rintro ⟨phase, hsome, -⟩
        obtain ⟨rfl, -⟩ := Prod.ext_iff.mp (Option.some.inj hsome)
        exact ⟨.answered a, rfl, rfl⟩
      · rintro ⟨phase, hsome, -⟩
        obtain ⟨rfl, -⟩ := Prod.ext_iff.mp (Option.some.inj hsome)
        exact ⟨.pending, rfl, rfl⟩
    · rw [List.getElem?_set_ne hc]
  -- the caches as they are, or with the key among the accepted ones
  have hkeep : ∀ hits : JsMap Key (Hit Identity),
      (∀ k, k ≠ key → s.hits.get? k = none → hits.get? k = none) →
      (a.isOk = false → hits.get? key = none) →
      Sound { s with
        hits, calls := s.calls.set call (key, .answered a), answers := s.answers ++ [(key, a)] } := by
    intro hits hother hself
    refine ⟨hflight, ?_, ?_, ?_, ?_, ?_⟩
    · intro k hk
      by_cases hkey : k = key
      · exact hkey ▸ hclear.2
      · exact h.apart k fun hnone => hk (hother k hkey hnone)
    · intro c k hc
      rcases getElem?_set_cases hc with ⟨-, heq⟩ | ⟨hne, hold⟩
      · cases heq
      · have hkey : k ≠ key := by
          rintro rfl
          exact hne (h.flight_unique hcall rfl hold rfl)
        exact (h.pending c k hold).imp (hother k hkey) id
    · intro c k b hc
      rcases getElem?_set_cases hc with ⟨-, heq⟩ | ⟨hne, hold⟩
      · cases heq
        exact ⟨hclear.2, hself⟩
      · have hkey : k ≠ key := by
          rintro rfl
          exact hne (h.flight_unique hcall rfl hold rfl)
        exact (h.answered c k b hold).imp id fun hok hb => hother k hkey (hok hb)
    · intro c hw k hc
      rcases getElem?_set_cases hc with ⟨-, heq⟩ | ⟨hne, hold⟩
      · cases heq
      · have hdue := h.due c hw k hold
        have hkey : k ≠ key := by
          rintro rfl
          rw [(h.flight k call).mpr ⟨_, hcall, rfl⟩] at hdue
          cases hdue.2
        exact ⟨hother k hkey hdue.1, hdue.2⟩
    · intro c hc
      rw [List.length_set]
      exact h.known c hc
  cases a with
  | ok identity =>
    refine hkeep _ (fun k hk hnone => ?_) fun hf => by cases hf
    rw [JsMap.get?_set_of_ne _ _ hk]
    split_ifs
    · exact JsMap.dropFirst_none hnone
    · exact hnone
  | error kind => exact hkeep s.hits (fun _ _ => id) fun _ => hclear.1
  | failed => exact hkeep s.hits (fun _ _ => id) fun _ => hclear.1

theorem Sound.settle (h : Sound s) {call : ℕ} {a : Answer Identity}
    (hcall : s.calls[call]? = some (key, Phase.answered a)) : Sound (settle s call key a) := by
  have hlt : call < s.calls.length := (List.getElem?_eq_some_iff.mp hcall).1
  refine ⟨?_, h.apart, ?_, ?_, ?_, ?_⟩
  · intro k c
    show (s.inflight.delete key).get? k = some c ↔ ∃ phase : Phase Identity,
      (s.calls.set call (key, .settled a))[c]? = some (k, phase) ∧ phase.inFlight = true
    rw [JsMap.get?_delete]
    by_cases hk : k = key
    · subst hk
      rw [if_pos rfl]
      refine ⟨fun hnone => absurd hnone (by simp), ?_⟩
      rintro ⟨phase, hc, hphase⟩
      rcases getElem?_set_cases hc with ⟨-, heq⟩ | ⟨hne, hold⟩
      · cases heq
        cases hphase
      · exact absurd (h.flight_unique hcall rfl hold hphase) hne
    · rw [if_neg hk, h.flight]
      have hne : ∀ {phase : Phase Identity}, s.calls[c]? = some (k, phase) → call ≠ c := by
        rintro phase hc rfl
        obtain ⟨rfl, -⟩ := Prod.ext_iff.mp (Option.some.inj (hcall.symm.trans hc))
        exact hk rfl
      constructor
      · rintro ⟨phase, hc, hphase⟩
        exact ⟨phase, by rw [List.getElem?_set_ne (hne hc), hc], hphase⟩
      · rintro ⟨phase, hc, hphase⟩
        rcases getElem?_set_cases hc with ⟨-, heq⟩ | ⟨-, hold⟩
        · obtain ⟨rfl, -⟩ := Prod.ext_iff.mp heq
          exact absurd rfl hk
        · exact ⟨phase, hold, hphase⟩
  · intro c k hc
    rcases getElem?_set_cases hc with ⟨-, heq⟩ | ⟨-, hold⟩
    · cases heq
    · exact h.pending c k hold
  · intro c k b hc
    rcases getElem?_set_cases hc with ⟨-, heq⟩ | ⟨-, hold⟩
    · cases heq
    · exact h.answered c k b hold
  · intro c hw k hc
    rcases getElem?_set_cases hc with ⟨-, heq⟩ | ⟨-, hold⟩
    · cases heq
      exact ⟨(h.answered call _ _ hcall).2 rfl, JsMap.get?_delete_self _ _⟩
    · exact (h.due c hw k hold).imp id fun hnone => JsMap.delete_none hnone key
  · intro c hc
    show c < (s.calls.set call (key, Phase.settled a)).length
    rw [List.length_set]
    exact h.known c hc

theorem Sound.resume (h : Sound s) {i call : ℕ} {a : Answer Identity}
    (hi : s.waiting[i]? = some call) (hcall : s.calls[call]? = some (key, Phase.settled a)) :
    Sound (resume o s i key a negativeNow) := by
  have hleave : Sound { s with waiting := s.waiting.eraseIdx i } :=
    ⟨h.flight, h.apart, h.pending, h.answered,
      fun c hc => h.due c (List.mem_of_mem_eraseIdx hc),
      fun c hc => h.known c (List.mem_of_mem_eraseIdx hc)⟩
  unfold VerifyCaches.resume
  dsimp only
  split
  · obtain ⟨hhit, hin⟩ := h.due call (List.mem_of_getElem? hi) key hcall
    have hflying : ∀ {c : ℕ} {k : Key} {phase : Phase Identity},
        s.calls[c]? = some (k, phase) → phase.inFlight = true → k ≠ key := by
      rintro c k phase hc hphase rfl
      rw [(h.flight k c).mpr ⟨phase, hc, hphase⟩] at hin
      cases hin
    have hother : ∀ k, k ≠ key → s.rejected.get? k = none → ∀ until_,
        ((if o.negativeMax ≤ s.rejected.size then s.rejected.dropFirst else s.rejected).set key
          until_).get? k = none := by
      intro k hk hnone until_
      rw [JsMap.get?_set_of_ne _ _ hk]
      split_ifs
      · exact JsMap.dropFirst_none hnone
      · exact hnone
    refine ⟨h.flight, ?_, ?_, ?_, hleave.due, hleave.known⟩
    · intro k hk
      by_cases hkey : k = key
      · exact absurd hhit (hkey ▸ hk)
      · exact hother k hkey (h.apart k hk) _
    · intro c k hc
      exact (h.pending c k hc).imp id fun hnone => hother k (hflying hc rfl) hnone _
    · intro c k b hc
      exact (h.answered c k b hc).imp (fun hnone => hother k (hflying hc rfl) hnone _) id
  · exact hleave

theorem step_sound {a : Action Token Identity} (h : Sound s) (hok : Calm o s a)
    (hs : step o s a = some s') : Sound s' := by
  cases a with
  | verify token now negativeNow =>
    obtain rfl := Option.some.inj hs
    exact h.verify hok
  | answer call a now =>
    simp only [step] at hs
    split at hs
    · next hcall =>
      obtain rfl := Option.some.inj hs
      exact h.answer hcall a
    · cases hs
  | settle call =>
    simp only [step] at hs
    split at hs
    · next hcall =>
      obtain rfl := Option.some.inj hs
      exact h.settle hcall
    · cases hs
  | resume i negativeNow =>
    simp only [step] at hs
    split at hs
    · next hbind =>
      obtain ⟨call, hi, hcall⟩ := Option.bind_eq_some_iff.mp hbind
      obtain rfl := Option.some.inj hs
      exact h.resume hi hcall
    · cases hs

/-- Only what the provider has answered is remembered, and only two kinds of answers. -/
structure Remembered (s : State Key Identity) : Prop where
  hits : ∀ key hit, s.hits.get? key = some hit → (key, Answer.ok hit.identity) ∈ s.answers
  rejected : ∀ key until_, s.rejected.get? key = some until_ →
    (key, Answer.error .unauthorized) ∈ s.answers
  answered : ∀ (call : ℕ) key a, s.calls[call]? = some (key, Phase.answered a) →
    (key, a) ∈ s.answers
  settled : ∀ (call : ℕ) key a, s.calls[call]? = some (key, Phase.settled a) →
    (key, a) ∈ s.answers

theorem remembered_init : Remembered ({} : State Key Identity) where
  hits _ _ h := by simp at h
  rejected _ _ h := by simp at h
  answered _ _ _ h := by simp at h
  settled _ _ _ h := by simp at h

theorem Remembered.verifyCached (h : Remembered s) : Remembered (verifyCached s key now).1 := by
  unfold VerifyCaches.verifyCached
  split
  · exact h
  have hhits : ∀ k hit, (s.hits.delete key).get? k = some hit →
      (k, Answer.ok hit.identity) ∈ s.answers := fun k hit hk => h.hits k hit (JsMap.get?_of_delete hk)
  dsimp only
  split
  · exact ⟨hhits, h.rejected, h.answered, h.settled⟩
  · refine ⟨hhits, h.rejected, ?_, ?_⟩
    · exact fun c k a hc => h.answered c k a (getElem?_append_pending hc nofun)
    · exact fun c k a hc => h.settled c k a (getElem?_append_pending hc nofun)

theorem Remembered.verify (h : Remembered s) : Remembered (verify o s token now negativeNow).1 := by
  rcases verify_cases o s token now negativeNow with
    ⟨until_, hkept, -, heq⟩ | ⟨rejected, hrejected, -, heq⟩
  · rw [heq]
    refine ⟨h.hits, fun k u hu => ?_, h.answered, h.settled⟩
    rw [JsMap.get?_set] at hu
    split_ifs at hu with hk
    · exact h.rejected k until_ (hk ▸ hkept)
    · exact h.rejected k u (JsMap.get?_of_delete hu)
  · rw [heq]
    have hless : Remembered { s with rejected } := by
      refine ⟨h.hits, fun k u hu => ?_, h.answered, h.settled⟩
      subst hrejected
      dsimp only at hu
      split_ifs at hu
      · exact h.rejected k u hu
      · exact h.rejected k u (JsMap.get?_of_delete hu)
    exact hless.verifyCached

theorem Remembered.answer (h : Remembered s) (call : ℕ) (a : Answer Identity) :
    Remembered (answer o s call key a now) := by
  have hkeep : ∀ hits : JsMap Key (Hit Identity),
      (∀ k hit, hits.get? k = some hit → (k, Answer.ok hit.identity) ∈ s.answers ++ [(key, a)]) →
      Remembered { s with
        hits, calls := s.calls.set call (key, .answered a), answers := s.answers ++ [(key, a)] } := by
    intro hits hhits
    refine ⟨hhits, fun k u hu => List.mem_append_left _ (h.rejected k u hu), ?_, ?_⟩
    · intro c k b hc
      rcases getElem?_set_cases hc with ⟨-, heq⟩ | ⟨-, hold⟩
      · cases heq
        simp
      · exact List.mem_append_left _ (h.answered c k b hold)
    · intro c k b hc
      rcases getElem?_set_cases hc with ⟨-, heq⟩ | ⟨-, hold⟩
      · cases heq
      · exact List.mem_append_left _ (h.settled c k b hold)
  have hold : ∀ k hit, s.hits.get? k = some hit →
      (k, Answer.ok hit.identity) ∈ s.answers ++ [(key, a)] :=
    fun k hit hk => List.mem_append_left _ (h.hits k hit hk)
  cases a with
  | ok identity =>
    refine hkeep _ fun k hit hk => ?_
    rw [JsMap.get?_set] at hk
    split_ifs at hk with hkey hfull
    · obtain rfl := Option.some.inj hk
      simp [hkey]
    · exact hold k hit (JsMap.get?_of_dropFirst hk)
    · exact hold k hit hk
  | error kind => exact hkeep s.hits hold
  | failed => exact hkeep s.hits hold

theorem Remembered.settle (h : Remembered s) {call : ℕ} {a : Answer Identity}
    (hcall : s.calls[call]? = some (key, Phase.answered a)) : Remembered (settle s call key a) := by
  refine ⟨h.hits, h.rejected, ?_, ?_⟩
  · intro c k b hc
    rcases getElem?_set_cases hc with ⟨-, heq⟩ | ⟨-, hold⟩
    · cases heq
    · exact h.answered c k b hold
  · intro c k b hc
    rcases getElem?_set_cases hc with ⟨-, heq⟩ | ⟨-, hold⟩
    · cases heq
      exact h.answered call _ _ hcall
    · exact h.settled c k b hold

theorem Remembered.resume (h : Remembered s) {i call : ℕ} {a : Answer Identity}
    (hcall : s.calls[call]? = some (key, Phase.settled a)) :
    Remembered (resume o s i key a negativeNow) := by
  unfold VerifyCaches.resume
  dsimp only
  split
  · refine ⟨h.hits, fun k u hu => ?_, h.answered, h.settled⟩
    dsimp only at hu
    rw [JsMap.get?_set] at hu
    split_ifs at hu with hkey hfull
    · exact hkey ▸ h.settled call key _ hcall
    · exact h.rejected k u (JsMap.get?_of_dropFirst hu)
    · exact h.rejected k u hu
  · exact ⟨h.hits, h.rejected, h.answered, h.settled⟩

theorem step_remembered {a : Action Token Identity} (h : Remembered s)
    (hs : step o s a = some s') : Remembered s' := by
  cases a with
  | verify token now negativeNow =>
    obtain rfl := Option.some.inj hs
    exact h.verify
  | answer call a now =>
    simp only [step] at hs
    split at hs
    · obtain rfl := Option.some.inj hs
      exact h.answer call a
    · cases hs
  | settle call =>
    simp only [step] at hs
    split at hs
    · next hcall =>
      obtain rfl := Option.some.inj hs
      exact h.settle hcall
    · cases hs
  | resume i negativeNow =>
    simp only [step] at hs
    split at hs
    · next hbind =>
      obtain ⟨call, -, hcall⟩ := Option.bind_eq_some_iff.mp hbind
      obtain rfl := Option.some.inj hs
      exact h.resume hcall
    · cases hs

/-! What a peek tells. -/

/-- A verification begun where the peek has been made does what the peek says. -/
def Told (o : Options Token Key) (s : State Key Identity) (token : Token) (now negativeNow : ℕ) :
    Prop :=
  let begun := verify o s token now negativeNow
  match peek o s token now negativeNow with
  | .valid => ∃ hit, s.hits.get? (o.keyOf token) = some hit ∧ begun.2 = .resolved hit.identity ∧
      begun.1.calls = s.calls
  | .rejected => begun.2 = .refused ∧ begun.1.calls = s.calls
  | .miss => ∃ call phase, begun.2 = .waits call ∧
      begun.1.calls[call]? = some (o.keyOf token, phase) ∧ phase.inFlight = true

/-- A verification that the cache of accepted tokens cannot answer waits for a call in flight. -/
theorem Sound.waits (h : Sound s) (hlive : liveHit s key now = none) :
    ∃ (call : ℕ) (phase : Phase Identity), (VerifyCaches.verifyCached s key now).2 = .waits call ∧
      (VerifyCaches.verifyCached s key now).1.calls[call]? = some (key, phase) ∧ phase.inFlight = true := by
  unfold VerifyCaches.verifyCached
  simp only [hlive]
  cases hin : s.inflight.get? key with
  | some call =>
    obtain ⟨phase, hphase, hflight⟩ := (h.flight key call).mp hin
    exact ⟨call, phase, rfl, hphase, hflight⟩
  | none => exact ⟨s.calls.length, .pending, rfl, by simp, rfl⟩

theorem Sound.told (h : Sound s) (o : Options Token Key) (token : Token) (now negativeNow : ℕ) :
    Told o s token now negativeNow := by
  unfold Told peek
  dsimp only
  cases hlive : liveHit s (o.keyOf token) now with
  | some identity =>
    obtain ⟨hit, hhit, rfl⟩ := liveHit_eq_some hlive
    have hout : s.rejected.get? (o.keyOf token) = none := h.apart _ (by simp [hhit])
    refine ⟨hit, hhit, ?_⟩
    have hbegun : VerifyCaches.verify o s token now negativeNow = (s, .resolved hit.identity) := by
      simp only [VerifyCaches.verify, hout, VerifyCaches.verifyCached, hlive]
    rw [hbegun]
    exact ⟨rfl, rfl⟩
  | none =>
    simp only [Option.isSome_none, Bool.false_eq_true, if_false]
    rcases verify_cases o s token now negativeNow with
      ⟨until_, hkept, hlate, heq⟩ | ⟨rejected, hrejected, hexpired, heq⟩
    · have hrej : isRejected s (o.keyOf token) negativeNow = true := by
        simp [isRejected, hkept, hlate]
      rw [if_pos hrej, heq]
      exact ⟨rfl, rfl⟩
    · have hrej : ¬ isRejected s (o.keyOf token) negativeNow = true := by
        unfold isRejected
        cases hr : s.rejected.get? (o.keyOf token) with
        | none => simp
        | some until_ => simpa using hexpired until_ hr
      rw [if_neg hrej, heq]
      have hless : ∀ k, s.rejected.get? k = none → rejected.get? k = none := by
        intro k hk
        subst hrejected
        split_ifs
        · exact hk
        · exact JsMap.delete_none hk _
      exact (h.forget s.hits rejected (fun _ => id) hless).waits hlive

/-- No step that handles the answer changes what is remembered. -/
def Forgotten (o : Options Token Key) (s : State Key Identity) (a : Answer Identity) : Prop :=
  ∀ key,
    (∀ call now, (answer o s call key a now).hits = s.hits ∧
      (answer o s call key a now).rejected = s.rejected) ∧
    (∀ call, (settle s call key a).hits = s.hits ∧ (settle s call key a).rejected = s.rejected) ∧
    ∀ i negativeNow, (resume o s i key a negativeNow).hits = s.hits ∧
      (resume o s i key a negativeNow).rejected = s.rejected

theorem forgotten_of_failure {a : Answer Identity} (hok : a.isOk = false)
    (hun : a ≠ .error .unauthorized) : Forgotten o s a := by
  intro key
  refine ⟨fun call now => ?_, fun call => ⟨rfl, rfl⟩, fun i negativeNow => ?_⟩
  · cases a with
    | ok identity => cases hok
    | error kind => exact ⟨rfl, rfl⟩
    | failed => exact ⟨rfl, rfl⟩
  · unfold VerifyCaches.resume
    dsimp only
    split
    · exact absurd rfl hun
    · exact ⟨rfl, rfl⟩

/-- In a calm run a peek tells what a verification does, each cache holds what the provider has
answered, and a failure is not remembered. -/
theorem peek_tells (o : Options Token Key) (as : List (Action Token Identity))
    (s : State Key Identity) (hr : run (step o) {} as = some s)
    (hok : Along (step o) (Calm o) {} as) :
    (∀ token now negativeNow, Told o s token now negativeNow) ∧
    (∀ key hit, s.hits.get? key = some hit → (key, Answer.ok hit.identity) ∈ s.answers) ∧
    (∀ key until_, s.rejected.get? key = some until_ →
      (key, Answer.error .unauthorized) ∈ s.answers) ∧
    ∀ a : Answer Identity, a.isOk = false → a ≠ .error .unauthorized → Forgotten o s a := by
  have hsound : Sound s := run_invariant_along (fun _ _ _ h hc hs => step_sound h hc hs)
    sound_init hr hok
  have hknown : Remembered s := run_invariant (fun _ _ _ h hs => step_remembered h hs)
    remembered_init hr
  exact ⟨hsound.told o, hknown.hits, hknown.rejected, fun _ => forgotten_of_failure⟩

instance (s : State Key Identity) (token : Token) (now negativeNow : ℕ)
    [DecidableEq Identity] : Decidable (callsAnew o s token now negativeNow) :=
  decidable_of_iff ((∀ until_ ∈ s.rejected.get? (o.keyOf token), until_ ≤ negativeNow) ∧
    liveHit s (o.keyOf token) now = none ∧ s.inflight.get? (o.keyOf token) = none) Iff.rfl

instance (s : State Key Identity) (a : Action Token Identity) [DecidableEq Identity] :
    Decidable (Calm o s a) := by
  cases a <;> unfold Calm <;> infer_instance

/-- The code's limits; a token is its own key. -/
def usual : Options ℕ ℕ := ⟨id, 300000, 1000, 30000, 1000⟩

/-- One token is accepted and another rejected, for two who wait. -/
def settled : List (Action ℕ Bool) :=
  [.verify 1 0 0, .verify 2 0 0, .verify 2 1 1, .answer 0 (.ok true) 5,
    .answer 1 (.error .unauthorized) 5, .settle 0, .settle 1, .resume 0 6, .resume 0 6, .resume 0 6]

theorem settled_told : ∃ s, run (step usual) {} settled = some s ∧
    ∀ token now negativeNow, Told usual s token now negativeNow := by
  have hsome : (run (step usual) {} settled).isSome = true := by decide +kernel
  obtain ⟨s, hs⟩ := Option.isSome_iff_exists.mp hsome
  exact ⟨s, hs, (peek_tells usual settled s hs (by decide +kernel)).1⟩

/-- A token is rejected; before the one who waited continues, it is asked for anew and accepted. -/
def accepted : List (Action ℕ Bool) :=
  [.verify 1 0 0, .answer 0 (.error .unauthorized) 1, .settle 0, .verify 1 1 1, .resume 0 1,
    .answer 1 (.ok true) 2]

theorem accepted_refused : ∃ s, run (step usual) {} accepted = some s ∧
    ¬ Told usual s 1 3 3 := by
  have hboth : (run (step usual) {} accepted).map (fun s =>
      (peek usual s 1 3 3, (verify usual s 1 3 3).2)) = some (.valid, .refused) := by
    decide +kernel
  obtain ⟨s, hs, hpair⟩ := Option.map_eq_some_iff.mp hboth
  obtain ⟨hpeek, hbegun⟩ := Prod.ext_iff.mp hpair
  dsimp only at hpeek hbegun
  refine ⟨s, hs, ?_⟩
  unfold Told
  simp only [hpeek, hbegun]
  rintro ⟨hit, -, h, -⟩
  cases h

end ClaudeFleet.VerifyCaches
