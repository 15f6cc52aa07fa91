import ClaudeFleet.Transition

/-! The Postgres lease store and the write fence, statement by statement. Transactions run
at READ COMMITTED: a statement that needs a row lock is enabled once no other transaction
holds a conflicting one, and then reads the committed row. An uncommitted new version of
the row is `pending`; a clock that only advances is `now`. -/
namespace ClaudeFleet.PgLease

structure HostLease where
  holder : Option String
  epoch : ℕ
  expiresAt : ℤ
  deriving DecidableEq, Repr

inductive LockMode
  | keyShare
  | noKeyUpdate
  | update
  deriving DecidableEq, Repr

/-- The row-lock conflict table, for the three modes these statements take. -/
def conflicts : LockMode → LockMode → Bool
  | .update, _ => true
  | _, .update => true
  | .noKeyUpdate, .noKeyUpdate => true
  | _, _ => false

inductive AcquireAt
  | begun
  | selected
  | upserted (granted : Option ℕ)
  deriving DecidableEq, Repr

inductive ReleaseAt
  | begun
  | selected
  | updated
  deriving DecidableEq, Repr

/-- An open transaction with the place it has reached. `mine` is the epoch the process of a
fenced write holds, if any. -/
inductive Txn
  | tryAcquire (holder : String) (ttlMs : ℕ) (place : AcquireAt)
  | renew (holder : String) (epoch : ℕ) (ttlMs : ℕ) (updated : Bool)
  | release (holder : String) (epoch : ℕ) (place : ReleaseAt)
  | write (holder : String) (mine : Option ℕ) (fenced : Bool)
  deriving DecidableEq, Repr

/-- The first statement of each transaction is still to run. -/
def Txn.fresh : Txn → Bool
  | .tryAcquire _ _ place => place = .begun
  | .renew _ _ _ updated => !updated
  | .release _ _ place => place = .begun
  | .write _ _ fenced => !fenced

inductive Event
  | granted (epoch : ℕ)
  | wrote (holder : String) (epoch : ℕ)
  deriving DecidableEq, Repr

structure Db where
  row : Option HostLease
  pending : Option (ℕ × HostLease) := none
  locks : List (ℕ × LockMode) := []
  txns : ℕ → Option Txn := fun _ => none
  now : ℤ := 0
  log : List Event := []

inductive Action
  | begin (t : ℕ) (txn : Txn)
  | selectForUpdate (t : ℕ)
  | upsert (t : ℕ)
  | update (t : ℕ)
  | fence (t : ℕ)
  | commit (t : ℕ)
  | rollback (t : ℕ)
  | advance (elapsed : ℕ)

def grantable (s : Db) (t : ℕ) (mode : LockMode) : Bool :=
  s.locks.all fun l => l.1 = t || !conflicts mode l.2

def setTxn (s : Db) (t : ℕ) (txn : Option Txn) : Db :=
  { s with txns := Function.update s.txns t txn }

def lock (s : Db) (t : ℕ) (mode : LockMode) : Db :=
  { s with locks := (t, mode) :: s.locks }

/-- The end of a transaction: its locks and its uncommitted version go. -/
def finish (s : Db) (t : ℕ) : Db :=
  { setTxn s t none with
    locks := s.locks.filter fun l => l.1 ≠ t
    pending := s.pending.filter fun p => p.1 ≠ t }

/-- `SELECT 1 FROM host_lease WHERE workspace_id = … FOR UPDATE`. Without a row there is
nothing to lock. -/
def exclusive (s : Db) (t : ℕ) (next : Txn) : Option Db :=
  match s.row with
  | none => some (setTxn s t (some next))
  | some _ =>
    if grantable s t .update then some (lock (setTxn s t (some next)) t .update) else none

/-- `INSERT … ON CONFLICT (workspace_id) DO UPDATE … WHERE … RETURNING epoch`. The conflict
branch sets no key column, so it locks the row FOR NO KEY UPDATE. -/
def upsertLease (s : Db) (t : ℕ) (holder : String) (ttlMs : ℕ) : Option Db :=
  let done := fun granted => some (Txn.tryAcquire holder ttlMs (.upserted granted))
  match s.row with
  | none =>
    if s.pending = none then
      some { setTxn s t (done (some 1)) with
        pending := some (t, ⟨some holder, 1, s.now + ttlMs⟩) }
    else none
  | some r =>
    if grantable s t .noKeyUpdate then
      if r.holder = none ∨ r.holder = some holder ∨ r.expiresAt ≤ s.now then
        some { lock (setTxn s t (done (some (r.epoch + 1)))) t .noKeyUpdate with
          pending := some (t, ⟨some holder, r.epoch + 1, s.now + ttlMs⟩) }
      else some (lock (setTxn s t (done none)) t .noKeyUpdate)
    else none

/-- `UPDATE host_lease SET … WHERE holder = … AND epoch = …`, a non-key update. -/
def updateLease (s : Db) (t : ℕ) (holder : String) (epoch : ℕ) (next : Txn)
    (set : HostLease → HostLease) : Option Db :=
  match s.row with
  | none => some (setTxn s t (some next))
  | some r =>
    if r.holder = some holder ∧ r.epoch = epoch then
      if grantable s t .noKeyUpdate then
        some { lock (setTxn s t (some next)) t .noKeyUpdate with pending := some (t, set r) }
      else none
    else some (setTxn s t (some next))

/-- `leaseFence`: `SELECT … FOR KEY SHARE`, then the holder, epoch and liveness checks. A
refused write throws, which ends its transaction. -/
def leaseFence (s : Db) (t : ℕ) (holder : String) (mine : Option ℕ) : Option Db :=
  match mine, s.row with
  | none, _ => some (finish s t)
  | some _, none => some (finish s t)
  | some e, some r =>
    if grantable s t .keyShare then
      if r.holder = some holder ∧ r.epoch = e ∧ r.expiresAt > s.now then
        some (lock (setTxn s t (some (.write holder mine true))) t .keyShare)
      else some (finish s t)
    else none

def commitLog : Txn → Option (List Event)
  | .tryAcquire _ _ (.upserted (some e)) => some [.granted e]
  | .tryAcquire _ _ (.upserted none) => some []
  | .renew _ _ _ true => some []
  | .release _ _ .updated => some []
  | .write holder (some e) true => some [.wrote holder e]
  | _ => none

/-- The version a commit of `t` publishes. -/
def published (s : Db) (t : ℕ) : Option HostLease :=
  match s.pending with
  | some (u, r) => if u = t then some r else s.row
  | none => s.row

def step (s : Db) : Action → Option Db
  | .begin t txn =>
    if s.txns t = none ∧ txn.fresh then some (setTxn s t (some txn)) else none
  | .selectForUpdate t =>
    match s.txns t with
    | some (.tryAcquire holder ttlMs .begun) =>
      exclusive s t (.tryAcquire holder ttlMs .selected)
    | some (.release holder epoch .begun) => exclusive s t (.release holder epoch .selected)
    | _ => none
  | .upsert t =>
    match s.txns t with
    | some (.tryAcquire holder ttlMs .selected) => upsertLease s t holder ttlMs
    | _ => none
  | .update t =>
    match s.txns t with
    | some (.renew holder epoch ttlMs false) =>
      updateLease s t holder epoch (.renew holder epoch ttlMs true)
        fun r => { r with expiresAt := s.now + ttlMs }
    | some (.release holder epoch .selected) =>
      updateLease s t holder epoch (.release holder epoch .updated)
        fun r => { r with holder := none, expiresAt := s.now }
    | _ => none
  | .fence t =>
    match s.txns t with
    | some (.write holder mine false) => leaseFence s t holder mine
    | _ => none
  | .commit t =>
    match (s.txns t).bind commitLog with
    | some events => some { finish s t with row := published s t, log := s.log ++ events }
    | none => none
  | .rollback t => some (finish s t)
  | .advance elapsed => some { s with now := s.now + elapsed }

/-- An earlier event against a later one: epochs only grow, and no write of an epoch
commits after a later epoch was granted. -/
def Ordered : Event → Event → Prop
  | .granted e, .granted e' => e < e'
  | .granted e, .wrote _ e' => e ≤ e'
  | .wrote _ _, _ => True

end ClaudeFleet.PgLease
