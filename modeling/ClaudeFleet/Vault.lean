import ClaudeFleet.Table
import ClaudeFleet.Transition

/-! The secret vault: one encrypted file, a copy of it in memory, and a lock for the calls that
write. The file is one cell. `load` takes no lock: it looks at the copy when it is called, and where
there is none reads the file and assigns the copy when its read is done. -/
namespace ClaudeFleet.Vault

/-- The secrets of one workspace. -/
abbrev Bag := Table (Prod.fst : String × String → String)

abbrev Store := Table (Prod.fst : String × Bag → String)

/-- `store[workspaceId]?.[key]` -/
def Store.secret (store : Store) (workspaceId key : String) : Option String :=
  (store.get workspaceId).bind fun b => (b.2.get key).map Prod.snd

def Store.keys (store : Store) (workspaceId : String) : List String :=
  ((store.get workspaceId).map fun b => b.2.rows.map Prod.fst).getD []

/-- `{ ...store, [workspaceId]: bag }` -/
def Store.putBag (store : Store) (workspaceId : String) (bag : Bag) : Store :=
  store.upsert (workspaceId, bag) (fun b => (b.1, bag)) fun _ => rfl

def Store.dropBag (store : Store) (workspaceId : String) : Store :=
  store.deleteWhere fun b => b.1 = workspaceId

inductive Op
  | getSecret (workspaceId key : String)
  | listKeys (workspaceId : String)
  | setSecret (workspaceId key value : String)
  | deleteSecret (workspaceId key : String)
  | deleteAllForWorkspace (workspaceId : String)
  deriving DecidableEq

def Op.locked : Op → Bool
  | .getSecret _ _ => false
  | .listKeys _ => false
  | _ => true

/-- The store that a call persists, where it persists one. -/
def Op.next (store : Store) : Op → Option Store
  | .getSecret _ _ => none
  | .listKeys _ => none
  | .setSecret workspaceId key value =>
    let bag := ((store.get workspaceId).map Prod.snd).getD .empty
    some (store.putBag workspaceId (bag.upsert (key, value) (fun r => (r.1, value)) fun _ => rfl))
  | .deleteSecret workspaceId key =>
    match store.get workspaceId with
    | none => none
    | some b =>
      if (b.2.get key).isNone then none
      else
        let left := b.2.deleteWhere fun r => r.1 = key
        if left.rows = [] then some (store.dropBag workspaceId)
        else some (store.putBag workspaceId left)
  | .deleteAllForWorkspace workspaceId =>
    if (store.get workspaceId).isNone then none else some (store.dropBag workspaceId)

inductive Result
  | done
  | secret (value : Option String)
  | keys (l : List String)
  deriving DecidableEq

def Op.result (store : Store) : Op → Result
  | .getSecret workspaceId key => .secret (store.secret workspaceId key)
  | .listKeys workspaceId => .keys (store.keys workspaceId)
  | _ => .done

inductive Pc
  /-- Behind the calls that took the lock before. -/
  | waiting
  | reading
  /-- The file was read, and `load` has not gone on. -/
  | arrived (store : Store)
  /-- `load` has returned. -/
  | loaded (store : Store)
  | writing (next : Store)
  /-- The file is written, and the call has not gone on. -/
  | wrote (next : Store)
  | resolved (r : Result)
  | rejected (message : String)
  /-- The app ended while the call ran. -/
  | killed
  deriving DecidableEq

structure Task where
  op : Op
  pc : Pc
  deriving DecidableEq

structure State where
  cache : Option Store
  file : Option Store
  /-- The calls that hold the lock or wait for it. -/
  writeChain : List ℕ
  next : ℕ
  tasks : ℕ → Option Task

def State.start (file : Option Store) : State := ⟨none, file, [], 0, fun _ => none⟩

/-- A missing file is an empty vault. -/
def State.onDisk (s : State) : Store := s.file.getD .empty

def State.goto (s : State) (t : ℕ) (op : Op) (pc : Pc) : State :=
  { s with tasks := Function.update s.tasks t (some ⟨op, pc⟩) }

def State.spawn (s : State) (op : Op) (pc : Pc) : State :=
  { s.goto s.next op pc with next := s.next + 1 }

/-- The call settles, and the next one in line may run. -/
def State.settle (s : State) (t : ℕ) (op : Op) (pc : Pc) : State :=
  { s.goto t op pc with writeChain := s.writeChain.filter fun j => j ≠ t }

/-- `load`, up to its first await. -/
def State.load (s : State) : Pc :=
  match s.cache with
  | some store => .loaded store
  | none => .reading

inductive Answer
  | ok
  | failed (message : String)
  deriving DecidableEq

inductive Action
  | call (op : Op) (encryptionAvailable : Bool)
  | resume (t : ℕ) (a : Answer)
  | restart

def State.call (s : State) (op : Op) (available : Bool) : State :=
  match op with
  | .setSecret _ _ _ =>
    if available then { s.spawn op .waiting with writeChain := s.writeChain ++ [s.next] }
    else s.spawn op
      (.rejected "Vault unavailable (secret encryption not available on this system).")
  | .getSecret _ _ => s.spawn op s.load
  | .listKeys _ => s.spawn op s.load
  | .deleteSecret _ _ => { s.spawn op .waiting with writeChain := s.writeChain ++ [s.next] }
  | .deleteAllForWorkspace _ =>
    { s.spawn op .waiting with writeChain := s.writeChain ++ [s.next] }

/-- The call has its store. `persist` assigns the copy before it encrypts and writes. -/
def State.proceed (s : State) (t : ℕ) (op : Op) (store : Store) (a : Answer) : State :=
  match op.next store, a with
  | none, _ => s.settle t op (.resolved (op.result store))
  | some next, .ok => { s with cache := some next }.goto t op (.writing next)
  | some next, .failed e => { s with cache := some next }.settle t op (.rejected e)

def State.resume (s : State) (t : ℕ) (op : Op) (pc : Pc) (a : Answer) : Option State :=
  match pc, a with
  | .waiting, _ => if s.writeChain.head? = some t then some (s.goto t op s.load) else none
  | .reading, .ok => some (s.goto t op (.arrived s.onDisk))
  -- a file that cannot be read or decrypted is an empty vault, too
  | .reading, .failed _ => some (s.goto t op (.arrived .empty))
  | .arrived store, _ => some ({ s with cache := some store }.goto t op (.loaded store))
  | .loaded store, a => some (s.proceed t op store a)
  | .writing next, .ok => some ({ s with file := some next }.goto t op (.wrote next))
  | .writing _, .failed e => some (s.settle t op (.rejected e))
  | .wrote _, _ => some (s.settle t op (.resolved .done))
  | .resolved _, _ => none
  | .rejected _, _ => none
  | .killed, _ => none

def Pc.kill : Pc → Pc
  | .resolved r => .resolved r
  | .rejected e => .rejected e
  | _ => .killed

/-- The app ends and starts again: the file stays. -/
def State.restart (s : State) : State :=
  { s with
    cache := none
    writeChain := []
    tasks := fun t => (s.tasks t).map fun x => { x with pc := x.pc.kill } }

def step (s : State) : Action → Option State
  | .call op available => some (s.call op available)
  | .resume t a =>
    match s.tasks t with
    | some ⟨op, pc⟩ => s.resume t op pc a
    | none => none
  | .restart => some s.restart

end ClaudeFleet.Vault
