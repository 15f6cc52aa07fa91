import ClaudeFleet.JsText
import ClaudeFleet.Keyset
import ClaudeFleet.Transition

/-! Federated session lists: each source is read a page at a time, and the pages that are loaded are
merged into one list. Strings are sequences of UTF-16 code units, as the code compares them. -/
namespace ClaudeFleet.Federation

abbrev JsString := List UInt16

/-- A string of characters below U+10000. -/
def js (s : String) : JsString := s.toList.map fun c => c.toNat.toUInt16

def codeUnitRank (c : ℕ) : ℕ :=
  if c < 0xd800 then c else if c < 0xe000 then c + 0x2000 else c - 0x800

def compareBytes : JsString → JsString → ℤ
  | [], b => -b.length
  | a, [] => a.length
  | x :: a, y :: b =>
    if x ≠ y then codeUnitRank x.toNat - codeUnitRank y.toNat else compareBytes a b

structure SessionCursor where
  lastActiveAt : ℤ
  id : JsString
  deriving DecidableEq

/-- A session as a source returns it; `data` is what the merge does not look at. -/
structure Session (D : Type) where
  workspaceId : JsString
  id : JsString
  lastActiveAt : Option ℤ
  data : D
  deriving DecidableEq

variable {D : Type}

def compareSessionKey (a b : Session D) : ℤ :=
  let d := b.lastActiveAt.getD 0 - a.lastActiveAt.getD 0
  if d ≠ 0 then d else compareBytes a.id b.id

def cursorOf (r : Session D) : SessionCursor := ⟨r.lastActiveAt.getD 0, r.id⟩

/-- A string as the ranks of its code units. -/
def byteKey (s : JsString) : List ℕ := s.map fun c => codeUnitRank c.toNat

/-- The order of the query: COALESCE(last_active_at, 0) DESC, id COLLATE "C". -/
def SessionCursor.order (c : SessionCursor) : ℤ ×ₗ List ℕ := toLex (-c.lastActiveAt, byteKey c.id)

def sessionOrder (r : Session D) : ℤ ×ₗ List ℕ := (cursorOf r).order

abbrev Origin := JsString

def localOrigin : Origin := js "local"

def compareOrigins (a b : Origin) : ℤ :=
  if a = b then 0
  else if a = localOrigin then -1
  else if b = localOrigin then 1
  else compareBytes a b

structure SourcePage (D : Type) where
  origin : Origin
  rows : List (Session D)
  next : Option SessionCursor
  deriving DecidableEq

structure WithOrigin (D : Type) where
  row : Session D
  origin : Origin
  deriving DecidableEq

/-- `pages` is what the merge was built from, kept under a symbol key. -/
structure MergedSessions (D : Type) where
  rows : List (WithOrigin D)
  more : List (Origin × SessionCursor)
  pages : List (SourcePage D)
  deriving DecidableEq

/-- The key under which a merge has seen a row. -/
def seenKey (r : Session D) : JsString := r.workspaceId ++ 0 :: r.id

/-- The rows that are not yet in `seen`, each put there when it is taken. -/
def takeUnseen (seen : List JsString) : List (WithOrigin D) → List (WithOrigin D)
  | [] => []
  | r :: rs =>
    if seenKey r.row ∈ seen then takeUnseen seen rs
    else r :: takeUnseen (seenKey r.row :: seen) rs

def compareRows (a b : WithOrigin D) : ℤ :=
  let c := compareSessionKey a.row b.row
  if c ≠ 0 then c else compareOrigins a.origin b.origin

def tagged (origin : Origin) (rows : List (Session D)) : List (WithOrigin D) :=
  rows.map fun r => ⟨r, origin⟩

def mergeSessionPages (pages : List (SourcePage D)) : MergedSessions D :=
  let ordered := pages.insertionSort fun a b => compareOrigins a.origin b.origin ≤ 0
  let rows := takeUnseen [] (ordered.flatMap fun p => tagged p.origin p.rows)
  { rows := rows.insertionSort fun a b => compareRows a b ≤ 0
    more := ordered.filterMap fun p => p.next.map fun c => (p.origin, c)
    pages := pages }

def appendSessionPage (cur : MergedSessions D) (page : SourcePage D) : MergedSessions D :=
  let prev := cur.pages.find? fun p => p.origin = page.origin
  let rest := cur.pages.filter fun p => p.origin ≠ page.origin
  mergeSessionPages
    (rest ++ [⟨page.origin, (prev.map SourcePage.rows).getD [] ++ page.rows, page.next⟩])

def replaceSessionPage (cur : MergedSessions D) (page : SourcePage D) : MergedSessions D :=
  mergeSessionPages ((cur.pages.filter fun p => p.origin ≠ page.origin) ++ [page])

structure Source (D : Type) where
  origin : Origin
  rows : List (Session D)

/-- One page of a source: up to `limit` rows after the cursor, read with one row more to see whether
there is a next page. -/
def sessionsPage (src : Source D) (after : Option SessionCursor) (limit : ℕ) : SourcePage D :=
  let sess := Keyset.fetch sessionOrder src.rows (after.map SessionCursor.order) (limit + 1)
  let page := sess.take limit
  { origin := src.origin
    rows := page
    next := if limit < sess.length then page.getLast?.map cursorOf else none }

inductive Action
  | merge (first : List (Origin × ℕ))
  | append (origin : Origin) (limit : ℕ)
  | replace (origin : Origin) (limit : ℕ)

/-- The first pages of these sources. -/
def firstPages (srcs : List (Source D)) (first : List (Origin × ℕ)) : List (SourcePage D) :=
  first.filterMap fun x =>
    (srcs.find? fun src => src.origin = x.1).map fun src => sessionsPage src none x.2

/-- A list of sources, read with limits of at least 1. An append follows the source's own entry of
`more`. -/
def step (srcs : List (Source D)) (s : Option (MergedSessions D)) :
    Action → Option (Option (MergedSessions D))
  | .merge first =>
    if (first.map Prod.fst).Nodup ∧ ∀ x ∈ first, 1 ≤ x.2 then
      some (some (mergeSessionPages (firstPages srcs first)))
    else none
  | .append origin limit =>
    match s, srcs.find? fun src => src.origin = origin with
    | some m, some src =>
      match m.more.find? fun x => x.1 = origin with
      | some x =>
        if 1 ≤ limit then some (some (appendSessionPage m (sessionsPage src (some x.2) limit)))
        else none
      | none => none
    | _, _ => none
  | .replace origin limit =>
    match s, srcs.find? fun src => src.origin = origin with
    | some m, some src =>
      if 1 ≤ limit then some (some (replaceSessionPage m (sessionsPage src none limit))) else none
    | _, _ => none

/-- All the rows of all the sources, each from the first origin that has it, in order. -/
def sortedUnion (srcs : List (Source D)) : List (WithOrigin D) :=
  let all := srcs.flatMap fun src => tagged src.origin src.rows
  let first := all.filter fun x => all.all fun y =>
    decide (y.row.workspaceId = x.row.workspaceId → y.row.id = x.row.id →
      compareOrigins x.origin y.origin ≤ 0)
  first.insertionSort fun a b => compareRows a b ≤ 0

end ClaudeFleet.Federation
