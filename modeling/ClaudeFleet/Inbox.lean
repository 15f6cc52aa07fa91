import ClaudeFleet.Table
import ClaudeFleet.Transition
import ClaudeFleet.Validation

/-! The inbox store: todos, their tags and the log of what happened to each, written by posts, which
meet an earlier todo of the same source and key again, and by updates of one todo. -/
namespace ClaudeFleet.Inbox
open Js Definition

inductive TodoStatus
  | opened
  | done
  | dismissed
  deriving DecidableEq

inductive TodoPriority
  | low
  | normal
  | high
  | urgent
  deriving DecidableEq

inductive SourceKind
  | user
  | workspace
  | automation
  deriving DecidableEq

def PRIORITIES : List TodoPriority := [.low, .normal, .high, .urgent]

def priorityRank (p : TodoPriority) : ℕ := PRIORITIES.idxOf p

def maxPriority (a b : TodoPriority) : TodoPriority :=
  if priorityRank b ≤ priorityRank a then a else b

/-- Whom an item or an event came from; the user has no id. -/
structure TodoSource where
  kind : SourceKind
  id : Option Text

structure TodoRow where
  id : Text
  title : Text
  body : Option Text
  status : TodoStatus
  priority : TodoPriority
  source : TodoSource
  sourceRunId : Option Text
  viaWorkspace : Option Text
  dedupeKey : Option Text
  seenCount : ℕ := 1
  recurred : Bool := false
  workspaceId : Option Text
  sessionId : Option Text
  createdAt : ℤ
  updatedAt : ℤ
  firstSeenAt : ℤ
  lastSeenAt : ℤ
  closedAt : Option ℤ := none

/-- What the unique index on keys compares: a missing source id counts as an empty one. -/
def TodoRow.dedupe (r : TodoRow) : Option (SourceKind × Text × Text) :=
  r.dedupeKey.map fun key => (r.source.kind, r.source.id.getD [], key)

/-- The todos, with the primary key and the index the table was made with. -/
structure Todos extends Table TodoRow.id where
  keys : (rows.filterMap TodoRow.dedupe).Nodup

def Todos.empty : Todos := ⟨Table.empty, by simp [Table.empty]⟩

/-- `INSERT`, which fails when it would break a constraint. -/
def Todos.insert (T : Todos) (r : TodoRow) : Option Todos :=
  if h : r.id ∉ T.rows.map TodoRow.id ∧ ∀ x ∈ T.rows, ∀ k, r.dedupe = some k → x.dedupe ≠ some k
  then
    some
      { rows := T.rows ++ [r]
        nodup := by simpa [List.nodup_append, T.nodup] using h.1
        keys := by
          rw [List.filterMap_append]
          refine List.nodup_append'.mpr ⟨T.keys, ?_, ?_⟩
          · cases hr : r.dedupe <;> simp [hr]
          · intro k hk hkr
            obtain ⟨x, hx, hxk⟩ := List.mem_filterMap.mp hk
            exact h.2 x hx k (by simpa using hkr) hxk }
  else none

/-- `UPDATE … WHERE id = ?` of columns that no constraint is about. -/
def Todos.update (T : Todos) (id : Text) (f : TodoRow → TodoRow) (hid : ∀ r, (f r).id = r.id)
    (hkey : ∀ r, (f r).dedupe = r.dedupe) : Todos :=
  { T.updateWhere (fun r => r.id = id) f hid with
    keys := by
      have hrows : (T.rows.map fun r => if r.id = id then f r else r).filterMap TodoRow.dedupe =
          T.rows.filterMap TodoRow.dedupe := by
        rw [List.filterMap_map]
        congr 1
        funext r
        simp only [Function.comp_apply]
        split_ifs
        · exact hkey r
        · rfl
      simpa [Table.updateWhere, hrows] using T.keys }

/-- What happened to a todo, with the details the log keeps. -/
inductive TodoEventKind
  | created (title : Text) (priority : TodoPriority)
  | seen (priority : TodoPriority) (body : Option Text)
  | reopened (priority : TodoPriority) (body : Option Text) (before : TodoStatus)
  | status (before after : TodoStatus)
  | priority (before after : TodoPriority)
  | tagAdd (tags : List Text)
  | tagRemove (tags : List Text)
  | bodyAppend (text : Text)
  | title (before after : Text)

structure TodoEvent where
  todoId : Text
  ts : ℤ
  kind : TodoEventKind
  actor : TodoSource

structure InboxStore where
  todos : Todos := Todos.empty
  /-- The tags of each todo, as pairs of its id and a tag. -/
  tags : Table (fun t : Text × Text => t) := Table.empty
  /-- The log, in the order of the ids its entries are given. -/
  events : List TodoEvent := []

structure PostTodoInput where
  title : Text
  body : Option Text := none
  priority : Option TodoPriority := none
  key : Option Text := none
  tags : List Value := []
  workspaceLink : Option Text := none
  sessionLink : Option Text := none
  viaWorkspace : Option Text := none
  sourceRunId : Option Text := none

structure UpdateTodoPatch where
  status : Option TodoStatus := none
  priority : Option TodoPriority := none
  title : Option Text := none
  tagsAdd : List Value := []
  tagsRemove : List Value := []
  bodyAppend : Option Text := none

namespace InboxStore

def tagsFor (s : InboxStore) (id : Text) : List Text :=
  (s.tags.rows.filter fun t => t.1 = id).map Prod.snd

def event (s : InboxStore) (id : Text) (ts : ℤ) (actor : TodoSource) (kind : TodoEventKind) :
    InboxStore :=
  { s with events := s.events ++ [⟨id, ts, kind, actor⟩] }

def set (s : InboxStore) (id : Text) (f : TodoRow → TodoRow)
    (hid : ∀ r, (f r).id = r.id := by exact fun _ => rfl)
    (hkey : ∀ r, (f r).dedupe = r.dedupe := by exact fun _ => rfl) : InboxStore :=
  { s with todos := s.todos.update id f hid hkey }

/-- One pass of the loop over the tags to add, beside those added so far. -/
def addTag (id : Text) (existing : List Text) (acc : InboxStore × List Text) (t : Text) :
    InboxStore × List Text :=
  let (s, added) := acc
  if MAX_TAGS ≤ existing.length + added.length then (s, added)
  else if t ∈ existing ∨ t ∈ added then (s, added)
  else ({ s with tags := s.tags.insertIgnore (id, t) }, added ++ [t])

def addTags (s : InboxStore) (id : Text) (tags : List Text) : InboxStore × List Text :=
  tags.foldl (addTag id (s.tagsFor id)) (s, [])

def removeTag (id : Text) (acc : InboxStore × List Text) (t : Text) : InboxStore × List Text :=
  let (s, removed) := acc
  ({ s with tags := s.tags.deleteWhere fun x => x = (id, t) },
    if (id, t) ∈ s.tags.rows then removed ++ [t] else removed)

def removeTags (s : InboxStore) (id : Text) (tags : List Text) : InboxStore × List Text :=
  tags.foldl (removeTag id) (s, [])

inductive PostAction
  | created
  | updated
  | reopened
  deriving DecidableEq

variable (L : Language)

/-- The todo that a post meets again; an empty key meets none. -/
def existing (s : InboxStore) (source : TodoSource) (input : PostTodoInput) : Option TodoRow :=
  match input.key with
  | none | some [] => none
  | some key =>
    s.todos.rows.find? fun r => r.dedupe = some (source.kind, source.id.getD [], key)

def create (s : InboxStore) (source : TodoSource) (input : PostTodoInput) (id : Text) (now : ℤ) :
    Option InboxStore :=
  let priority := input.priority.getD .normal
  let row : TodoRow :=
    { id, title := input.title, body := input.body, status := .opened, priority, source,
      dedupeKey := input.key, workspaceId := input.workspaceLink, sessionId := input.sessionLink,
      viaWorkspace := input.viaWorkspace, sourceRunId := input.sourceRunId,
      createdAt := now, updatedAt := now, firstSeenAt := now, lastSeenAt := now }
  (s.todos.insert row).map fun todos =>
    (({ s with todos }.addTags id (normalizeTags L input.tags)).1).event id now source
      (.created input.title priority)

/-- The row of a todo that a post has met again, as it was read. -/
def seenAgain (cur : TodoRow) (input : PostTodoInput) (now : ℤ) (r : TodoRow) : TodoRow :=
  let reopen := cur.status ≠ .opened
  { r with
    seenCount := r.seenCount + 1, lastSeenAt := now, updatedAt := now
    priority := maxPriority cur.priority (input.priority.getD .normal)
    body := input.body.or cur.body, status := .opened
    recurred := if reopen then true else cur.recurred
    closedAt := if reopen then none else cur.closedAt }

def seenKind (cur : TodoRow) (input : PostTodoInput) : TodoEventKind :=
  let priority := input.priority.getD .normal
  if cur.status ≠ .opened then .reopened priority input.body cur.status
  else .seen priority input.body

def again (s : InboxStore) (cur : TodoRow) (source : TodoSource) (input : PostTodoInput)
    (now : ℤ) : InboxStore :=
  let s := s.set cur.id (seenAgain cur input now)
  ((s.addTags cur.id (normalizeTags L input.tags)).1).event cur.id now source (seenKind cur input)

/-- The id is the one a created todo is given; the transaction fails when it cannot be inserted. -/
def post (s : InboxStore) (source : TodoSource) (input : PostTodoInput) (id : Text) (now : ℤ) :
    Option (InboxStore × Text × PostAction) :=
  match s.existing source input with
  | none => (s.create L source input id now).map fun s => (s, id, .created)
  | some cur =>
    some (s.again L cur source input now, cur.id,
      if cur.status ≠ .opened then .reopened else .updated)

/-! The parts of an update, each of which writes its event. -/

def updateStatus (s : InboxStore) (cur : TodoRow) (actor : TodoSource) (patch : UpdateTodoPatch)
    (now : ℤ) : InboxStore :=
  match patch.status with
  | none => s
  | some status =>
    if status = cur.status then s
    else
      (s.set cur.id fun r =>
        { r with
          status, closedAt := if status = .opened then none else some now, updatedAt := now }).event
        cur.id now actor (.status cur.status status)

def updatePriority (s : InboxStore) (cur : TodoRow) (actor : TodoSource) (patch : UpdateTodoPatch)
    (now : ℤ) : InboxStore :=
  match patch.priority with
  | none => s
  | some priority =>
    if priority = cur.priority then s
    else
      (s.set cur.id fun r => { r with priority, updatedAt := now }).event
        cur.id now actor (.priority cur.priority priority)

def updateTitle (s : InboxStore) (cur : TodoRow) (actor : TodoSource) (patch : UpdateTodoPatch)
    (now : ℤ) : InboxStore :=
  match patch.title.map trim with
  | none | some [] => s
  | some title =>
    if title = cur.title then s
    else
      (s.set cur.id fun r => { r with title := title.take 200, updatedAt := now }).event
        cur.id now actor (.title cur.title title)

def updateBody (s : InboxStore) (cur : TodoRow) (actor : TodoSource) (patch : UpdateTodoPatch)
    (now : ℤ) : InboxStore :=
  match patch.bodyAppend with
  | none => s
  | some raw =>
    if trim raw = [] then s
    else
      let text := raw.take 20000
      let body := match cur.body with
        | none | some [] => text
        | some body => body ++ js "\n\n" ++ text
      (s.set cur.id fun r => { r with body := some body, updatedAt := now }).event
        cur.id now actor (.bodyAppend text)

/-- An event about tags, where there were any. -/
def tagEvent (s : InboxStore) (id : Text) (now : ℤ) (actor : TodoSource)
    (kind : List Text → TodoEventKind) (tags : List Text) : InboxStore :=
  if tags = [] then s else s.event id now actor (kind tags)

def updateTags (s : InboxStore) (cur : TodoRow) (actor : TodoSource) (patch : UpdateTodoPatch)
    (now : ℤ) : InboxStore × Bool :=
  let (s, added) := s.addTags cur.id (normalizeTags L patch.tagsAdd)
  let s := s.tagEvent cur.id now actor .tagAdd added
  let (s, removed) := s.removeTags cur.id (normalizeTags L patch.tagsRemove)
  (s.tagEvent cur.id now actor .tagRemove removed, added ≠ [] ∨ removed ≠ [])

def update (s : InboxStore) (actor : TodoSource) (id : Text) (patch : UpdateTodoPatch) (now : ℤ) :
    Option InboxStore :=
  (s.todos.get id).map fun cur =>
    let s := s.updateStatus cur actor patch now
    let s := s.updatePriority cur actor patch now
    let s := s.updateTitle cur actor patch now
    let (s, tagged) := s.updateTags L cur actor patch now
    let s := s.updateBody cur actor patch now
    if tagged then s.set cur.id fun r => { r with updatedAt := now } else s

end InboxStore

inductive Action
  | post (source : TodoSource) (input : PostTodoInput) (id : Text) (now : ℤ)
  | update (actor : TodoSource) (id : Text) (patch : UpdateTodoPatch) (now : ℤ)

/-- A transaction that fails leaves the store as it was. -/
def step (L : Language) (s : InboxStore) : Action → Option InboxStore
  | .post source input id now => some (((s.post L source input id now).map Prod.fst).getD s)
  | .update actor id patch now => some ((s.update L actor id patch now).getD s)

end ClaudeFleet.Inbox
