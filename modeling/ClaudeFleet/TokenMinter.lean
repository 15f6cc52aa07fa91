import ClaudeFleet.SlotGate
import ClaudeFleet.TokenReply
import ClaudeFleet.Transition

/-! The minter of installation tokens: its cache, the requests under way with the slots they take
and the calls that share them, while the configuration changes. -/
namespace ClaudeFleet.TokenMinter
open Js TokenScope Transition

def REFRESH_BEFORE_MS : ℤ := 5 * 60000

def MAX_CACHED : ℕ := 64

def MAX_INFLIGHT : ℕ := 4

/-- A token request: before its slot, at GitHub, answered with its slot yet to be given back, and
before and after the calls that wait for it learn of it. -/
inductive Stage
  | queued
  | sent
  | answered (outcome : Except MintError Value)
  | released (outcome : Except MintError Value)
  | done (outcome : Except MintError Value)

def Stage.holdsSlot : Stage → Bool
  | .sent | .answered _ => true
  | .queued | .released _ | .done _ => false

def Stage.isSent : Stage → Bool
  | .sent => true
  | .queued | .answered _ | .released _ | .done _ => false

def Stage.unfinished : Stage → Bool
  | .queued | .sent | .answered _ | .released _ => true
  | .done _ => false

def Stage.outcome : Stage → Option (Except MintError Value)
  | .queued | .sent => none
  | .answered outcome | .released outcome | .done outcome => some outcome

variable {L : Platform}

structure Fetch (L : Platform) where
  query : TokenQuery L
  stage : Stage

/-- What a call asks for, and the ceiling it checked this against. -/
structure Asked (L : Platform) where
  query : TokenQuery L
  ceiling : Permissions

/-- Where the token of a call comes from: the cache, at that time, or a request. -/
inductive Source
  | cache (now : ℤ)
  | fetch (f : ℕ)

inductive CallStage (L : Platform)
  /-- The call waits for the account's login. -/
  | owner (account : ℕ)
  | waits (asked : Asked L) (f : ℕ)
  | failed (e : MintError)
  | returned (asked : Asked L) (source : Source) (token : ScopedToken)

/-- A call that has passed its first checks, with the allow list it found. -/
structure Call (L : Platform) where
  raw : Value
  request : TokenRequest
  allow : Option (List Text)
  stage : CallStage L

/-- The configuration, the minter's variables, and every fetch of the account and of a token, and
every call, in the order they were made. -/
structure State (L : Platform) where
  allow : Option (List Text) := none
  permissions : Option Permissions := none
  blockedUntil : ℚ := 0
  accountP : Option ℕ := none
  accounts : List (Option (Except MintError Text)) := []
  gate : SlotGate ℕ := {}
  fetches : List (Fetch L) := []
  inflight : JsMap Text ℕ := .empty
  cache : JsMap Text ScopedToken := .empty
  calls : List (Call L) := []

inductive Action
  | configure (allow : Option (List Text)) (permissions : Option Permissions)
  | account (now : ℤ)
  | accountReply (p : ℕ) (r : Response) (now : ℤ)
  /-- A fetch of the account that failed is forgotten. -/
  | forgetAccount (p : ℕ)
  | mint (raw : Value) (now : ℤ)
  /-- A call continues after the account's fetch. -/
  | ownerKnown (c : ℕ) (now : ℤ)
  /-- A token request that was woken takes its slot. -/
  | continue_ (f : ℕ) (now : ℤ)
  | reply (f : ℕ) (r : Response) (now : ℤ)
  | release (f : ℕ)
  /-- The reply is checked, and the request leaves those in flight. -/
  | finish (f : ℕ)
  /-- A call continues after its token request. -/
  | resume (c : ℕ)

def blocked (s : State L) (now : ℤ) : Bool := decide ((now : ℚ) < s.blockedUntil)

/-- The fetch of the account to wait for. -/
def account (s : State L) (now : ℤ) : State L × ℕ :=
  match s.accountP with
  | some p => (s, p)
  | none =>
    let p := s.accounts.length
    let result := if blocked s now then some (.error blockedError) else none
    ({ s with accountP := some p, accounts := s.accounts ++ [result] }, p)

def setStage (s : State L) (f : ℕ) (fetch : Fetch L) (stage : Stage) : State L :=
  { s with fetches := s.fetches.set f { fetch with stage } }

/-- How a call of the API begins: at once it may be blocked. -/
def sendStage (s : State L) (now : ℤ) : Stage :=
  if blocked s now then .answered (.error blockedError) else .sent

def fetchToken (s : State L) (query : TokenQuery L) (now : ℤ) : State L :=
  let f := s.fetches.length
  let stage := if MAX_INFLIGHT ≤ s.gate.running then .queued else sendStage s now
  { s with
    gate := s.gate.enter MAX_INFLIGHT f
    fetches := s.fetches ++ [{ query, stage }]
    inflight := s.inflight.set (key query) f }

def liveHit (s : State L) (query : TokenQuery L) (now : ℤ) : Option ScopedToken :=
  (s.cache.get? (key query)).filter fun t => decide (REFRESH_BEFORE_MS < t.expiresAt - now)

def ceiling (s : State L) : Permissions := s.permissions.getD DEFAULT_PERMISSIONS

/-- The call from its check of the permissions on, until it waits or ends. -/
def proceed (s : State L) (v : TokenRequest) (now : ℤ) : State L × CallStage L :=
  match authorize L v (ceiling s) with
  | .error e => (s, .failed e)
  | .ok query =>
    let asked : Asked L := ⟨query, ceiling s⟩
    match liveHit s query now, s.inflight.get? (key query) with
    | some token, _ => (s, .returned asked (.cache now) token)
    | none, some f => (s, .waits asked f)
    | none, none => (fetchToken s query now, .waits asked s.fetches.length)

def begin_ (s : State L) (raw : Value) (v : TokenRequest) (now : ℤ) : State L :=
  let r : State L × CallStage L := match v.owner with
    | some _ => ((account s now).1, .owner (account s now).2)
    | none => proceed s v now
  { r.1 with calls := r.1.calls ++ [{ raw, request := v, allow := s.allow, stage := r.2 }] }

/-- A call is refused and nothing has changed, or begins. -/
def mint (s : State L) (raw : Value) (now : ℤ) : Except MintError (State L) := do
  let v ← validateTokenRequest L raw
  checkAllow L s.allow v
  return begin_ s raw v now

def setCall (s : State L) (c : ℕ) (call : Call L) (stage : CallStage L) : State L :=
  { s with calls := s.calls.set c { call with stage } }

def ownerKnown (s : State L) (c : ℕ) (call : Call L) (login : Except MintError Text) (now : ℤ) :
    State L :=
  match login >>= checkOwner L (call.request.owner.getD []) with
  | .error e => setCall s c call (.failed e)
  | .ok () => setCall (proceed s call.request now).1 c call (proceed s call.request now).2

def remember (cache : JsMap Text ScopedToken) (k : Text) (token : ScopedToken) :
    JsMap Text ScopedToken :=
  let kept := (cache.delete k).set k token
  JsMap.dropFirst^[kept.size - MAX_CACHED] kept

/-- What a token request gives the calls that wait for it. -/
def fetched (fetch : Fetch L) (outcome : Except MintError Value) : Except MintError ScopedToken :=
  outcome >>= readToken fetch.query

def resume (s : State L) (c : ℕ) (call : Call L) (asked : Asked L) (f : ℕ)
    (result : Except MintError ScopedToken) : State L :=
  match result with
  | .error e => setCall s c call (.failed e)
  | .ok token =>
    setCall { s with cache := remember s.cache (key asked.query) token } c call
      (.returned asked (.fetch f) token)

def unblock (s : State L) (r : Response) (now : ℤ) : State L :=
  { s with blockedUntil := (blockUntil L r now).getD s.blockedUntil }

def step (s : State L) : Action → Option (State L)
  | .configure allow permissions => some { s with allow, permissions }
  | .account now => some (account s now).1
  | .accountReply p r now =>
    match s.accounts[p]? with
    | some none =>
      let login := callResult L .installation r now >>= readLogin
      some { unblock s r now with accounts := s.accounts.set p (some login) }
    | _ => none
  | .forgetAccount p =>
    match s.accounts[p]? with
    | some (some (.error _)) => some { s with accountP := none }
    | _ => none
  | .mint raw now =>
    match mint s raw now with
    | .ok t => some t
    | .error _ => some s
  | .ownerKnown c now =>
    match s.calls[c]? with
    | some call =>
      match call.stage with
      | .owner p =>
        match s.accounts[p]? with
        | some (some login) => some (ownerKnown s c call login now)
        | _ => none
      | _ => none
    | none => none
  | .continue_ f now =>
    match s.fetches[f]? with
    | some ⟨query, .queued⟩ =>
      if f ∈ s.gate.woken then
        some { setStage s f ⟨query, .queued⟩ (sendStage s now) with gate := s.gate.resume f }
      else none
    | _ => none
  | .reply f r now =>
    match s.fetches[f]? with
    | some ⟨query, .sent⟩ =>
      some (setStage (unblock s r now) f ⟨query, .sent⟩
        (.answered (callResult L .accessTokens r now)))
    | _ => none
  | .release f =>
    match s.fetches[f]? with
    | some ⟨query, .answered outcome⟩ =>
      some { setStage s f ⟨query, .answered outcome⟩ (.released outcome) with
        gate := s.gate.leave }
    | _ => none
  | .finish f =>
    match s.fetches[f]? with
    | some ⟨query, .released outcome⟩ =>
      some { setStage s f ⟨query, .released outcome⟩ (.done outcome) with
        inflight := s.inflight.delete (key query) }
    | _ => none
  | .resume c =>
    match s.calls[c]? with
    | some call =>
      match call.stage with
      | .waits asked f =>
        match s.fetches[f]? with
        | some ⟨query, .done outcome⟩ =>
          some (resume s c call asked f (fetched ⟨query, .done outcome⟩ outcome))
        | _ => none
      | _ => none
    | none => none

/-- The token requests that GitHub has and has not answered. -/
def outstanding (s : State L) : ℕ := s.fetches.countP fun fetch => fetch.stage.isSent

/-- A request of its own would have to be made for the call. -/
def needsFetch (s : State L) (v : TokenRequest) (now : ℤ) : Bool :=
  match authorize L v (ceiling s) with
  | .error _ => false
  | .ok query => (liveHit s query now).isNone && (s.inflight.get? (key query)).isNone

/-- The request of a call that goes on at once, without asking for the account. -/
def proceedsAtOnce (s : State L) (raw : Value) : Option TokenRequest :=
  match validateTokenRequest L raw with
  | .error _ => none
  | .ok v => if (checkAllow L s.allow v).isOk && v.owner.isNone then some v else none

/-- The account a call waits for is known, and is the owner it names. -/
def ownerPasses (s : State L) (call : Call L) : Bool :=
  match call.stage with
  | .owner p =>
    match s.accounts[p]? with
    | some (some login) => (login >>= checkOwner L (call.request.owner.getD [])).isOk
    | _ => false
  | _ => false

/-- A request that takes a slot at once leaves those on their way to others, and a reply whose names
join to those of the query has no comma in them. -/
def Orderly (s : State L) : Action → Prop
  | .mint raw now =>
    ∀ v ∈ proceedsAtOnce s raw, needsFetch s v now = true → s.gate.Spare MAX_INFLIGHT
  | .ownerKnown c now =>
    ∀ call ∈ s.calls[c]?, ownerPasses s call = true → needsFetch s call.request now = true →
      s.gate.Spare MAX_INFLIGHT
  | .reply f (.ok (some j)) _ => ∀ fetch ∈ s.fetches[f]?, Unjoined fetch.query j
  | _ => True

instance (s : State L) (a : Action) : Decidable (Orderly s a) := by
  unfold Orderly
  split <;> infer_instance

end ClaudeFleet.TokenMinter
