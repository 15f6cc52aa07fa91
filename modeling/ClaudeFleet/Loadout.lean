import ClaudeFleet.IngestParse
import ClaudeFleet.Occurrence

/-! Loadouts: folders whose files, CLAUDE.md block, settings, hooks and MCP servers are put into a
workspace directory, with a record of what was put there for the uninstall. -/
namespace ClaudeFleet.Loadout
open IngestParse Occurrence

abbrev Text := List Char

/-- A loadout id is used as a path component. -/
def pathSafe (c : Char) : Bool := c.isAlphanum || c == '_' || c == '-'

structure LoadoutId where
  value : Text
  safe : value ≠ [] ∧ ∀ c ∈ value, pathSafe c
  deriving DecidableEq

def blockStart (id : LoadoutId) : Text :=
  '<' :: ("!-- loadout:".toList ++ id.value ++ ' ' :: "start -->".toList)

def blockEnd (id : LoadoutId) : Text :=
  '<' :: ("!-- loadout:".toList ++ id.value ++ ' ' :: "end -->".toList)

/-- The white space and line terminators that `trim` removes. -/
def isSpace (c : Char) : Bool :=
  let n := c.toNat
  (0x9 ≤ n && n ≤ 0xd) || n == 0x20 || n == 0xa0 || n == 0x1680 || (0x2000 ≤ n && n ≤ 0x200a) ||
    n == 0x2028 || n == 0x2029 || n == 0x202f || n == 0x205f || n == 0x3000 || n == 0xfeff

def trimEnd (text : Text) : Text := text.rdropWhile isSpace

def trim (text : Text) : Text := trimEnd (text.dropWhile isSpace)

/-- The matches of a global replacement, one after the other; each one is at least a letter long. -/
def stripBlocks (id : LoadoutId) : ℕ → Text → Text
  | 0, text => text
  | fuel + 1, text =>
    match cut (blockStart id) text with
    | none => text
    | some (before, rest) =>
      match cut (blockEnd id) rest with
      | none => text
      | some (_, after) =>
        before.rdropWhile (· == '\n') ++
          '\n' :: stripBlocks id fuel (after.dropWhile (· == '\n'))

/-- Each block with the line breaks around it becomes one line break. -/
def stripBlock (text : Text) (id : LoadoutId) : Text := stripBlocks id text.length text

abbrev Path := List String

abbrev Bytes := List UInt8

inductive Node
  | file (content : Bytes)
  | dir
  deriving DecidableEq

/-- The tree under .claude, without its settings.json. -/
abbrev Tree := Path → Option Node

def isFile (tree : Tree) (path : Path) : Bool :=
  match tree path with
  | some (.file _) => true
  | _ => false

/-- A directory with its parents; none when one of them is a file. -/
def mkdir (tree : Tree) (path : Path) : Option Tree :=
  if path.inits.any (isFile tree) then none
  else some fun q => if q <+: path ∧ tree q = none then some .dir else tree q

def copyFile (tree : Tree) (path : Path) (content : Bytes) : Tree :=
  Function.update tree path (some (.file content))

/-- Removing what is not there is no error, removing a directory is. -/
def rm (tree : Tree) (path : Path) : Option Tree :=
  if tree path = some .dir then none else some (Function.update tree path none)

abbrev Obj := List (String × Json)

def get (o : Obj) (k : String) : Option Json := (o.find? fun f => f.1 = k).map Prod.snd

def set (o : Obj) (k : String) (v : Json) : Obj :=
  if (get o k).isSome then o.map fun f => if f.1 = k then (k, v) else f else o ++ [(k, v)]

def delete (o : Obj) (k : String) : Obj := o.filter fun f => f.1 ≠ k

/-- The properties that every object has. -/
def objectPrototype : List String :=
  ["__defineGetter__", "__defineSetter__", "__lookupGetter__", "__lookupSetter__", "__proto__",
    "constructor", "hasOwnProperty", "isPrototypeOf", "propertyIsEnumerable", "toLocaleString",
    "toString", "valueOf"]

/-- The operator in. -/
def hasProperty (o : Obj) (k : String) : Bool := objectPrototype.contains k || (get o k).isSome

mutual
/-- A value after JSON.stringify and JSON.parse. -/
def written : Json → Json
  | .num (.infinite _) => .null
  | .arr items => .arr (writtenItems items)
  | .obj fields => .obj (writtenFields fields)
  | v => v

def writtenItems : List Json → List Json
  | [] => []
  | v :: items => written v :: writtenItems items

def writtenFields : List (String × Json) → List (String × Json)
  | [] => []
  | f :: fields => (f.1, written f.2) :: writtenFields fields
end

inductive Token
  | null
  | bool (value : Bool)
  | num (value : ℚ)
  | str (value : String)
  | openArray
  | closeArray
  | openObject
  | closeObject
  deriving DecidableEq

mutual
/-- JSON.stringify, as the tokens of the text. -/
def stringify : Json → List Token
  | .null => [.null]
  | .bool b => [.bool b]
  | .num (.finite q) => [.num q]
  | .num (.infinite _) => [.null]
  | .str s => [.str s]
  | .arr items => .openArray :: (stringifyItems items ++ [.closeArray])
  | .obj fields => .openObject :: (stringifyFields fields ++ [.closeObject])

def stringifyItems : List Json → List Token
  | [] => []
  | v :: items => stringify v ++ stringifyItems items

def stringifyFields : List (String × Json) → List Token
  | [] => []
  | f :: fields => .str f.1 :: (stringify f.2 ++ stringifyFields fields)
end

/-- A JSON file: there is none, its text does not parse, or it has an object. -/
inductive ConfigFile
  | absent
  | malformed (text : String)
  | object (fields : Obj)

def readJson : ConfigFile → Option Obj
  | .object fields => some fields
  | _ => none

def writeJson (o : Obj) : ConfigFile := .object (writtenFields o)

def isObj : Option Json → Option Obj
  | some (.obj fields) => some fields
  | _ => none

/-- A loadout folder. The drop files come from a directory tree, so that no path leads through
another one. -/
structure Loadout where
  drops : List (Path × Bytes)
  tree : drops.Pairwise fun a b => ¬ a.1 <+: b.1 ∧ ¬ b.1 <+: a.1
  claudeMd : Option Text
  settings : Option Obj
  hooks : Option Obj
  mcp : Option Obj

structure HookRecord where
  event : String
  entry : Json

structure Merges where
  claudeMd : Bool
  settingsKeys : List String
  mcpServers : List String
  hooks : List HookRecord

structure InstalledLoadout where
  id : LoadoutId
  files : List Path
  merges : Merges

structure Workspace where
  tree : Tree
  claudeMd : Option Text
  settings : ConfigFile
  mcp : ConfigFile
  installed : List InstalledLoadout

structure AppliedRecord where
  files : List Path
  claudeMd : Bool
  skipped : List Path

structure MergeRecord where
  settingsKeys : List String
  mcpServers : List String
  hooks : List HookRecord
  skipped : List String

/-- The loop over the drop files. The last component is none when it was left by an exception. -/
def dropFiles : Tree → List (Path × Bytes) → Tree × Option (List Path × List Path)
  | tree, [] => (tree, some ([], []))
  | tree, (dest, content) :: rest =>
    if (tree dest).isSome then
      let r := dropFiles tree rest
      (r.1, r.2.map fun x => (x.1, dest :: x.2))
    else
      match mkdir tree dest.dropLast with
      | none => (tree, none)
      | some tree =>
        let r := dropFiles (copyFile tree dest content) rest
        (r.1, r.2.map fun x => (dest :: x.1, x.2))

/-- CLAUDE.md with the block of a loadout at its end. -/
def appendBlock (prior : Text) (id : LoadoutId) (content : Text) : Text :=
  let base := trimEnd (stripBlock prior id)
  let block := blockStart id ++ '\n' :: trim content ++ '\n' :: blockEnd id
  if base = [] then block ++ ['\n'] else base ++ '\n' :: '\n' :: block ++ ['\n']

def applyLoadoutFiles (src : Loadout) (ws : Workspace) (id : LoadoutId) :
    Workspace × Option AppliedRecord :=
  match dropFiles ws.tree src.drops with
  | (tree, none) => ({ ws with tree }, none)
  | (tree, some (files, skipped)) =>
    match src.claudeMd with
    | none => ({ ws with tree }, some ⟨files, false, skipped⟩)
    | some content =>
      ({ ws with tree, claudeMd := some (appendBlock (ws.claudeMd.getD []) id content) },
        some ⟨files, true, skipped⟩)

abbrev HookEntries := List (String × List Json)

/-- `(into[event] ??= []).push(...entries)`. -/
def pushEntries (into : HookEntries) (event : String) (entries : List Json) : HookEntries :=
  if into.any fun x => x.1 = event then
    into.map fun x => if x.1 = event then (x.1, x.2 ++ entries) else x
  else into ++ [(event, entries)]

/-- An event that every object has as a property is an exception: what stands there has no push. -/
def collectHookEntries : Obj → HookEntries → Option HookEntries
  | [], into => some into
  | (event, .arr entries) :: fields, into =>
    if objectPrototype.contains event then none
    else collectHookEntries fields (pushEntries into event entries)
  | _ :: fields, into => collectHookEntries fields into

def hookEntries (src : Loadout) : Option HookEntries :=
  (collectHookEntries (src.hooks.getD []) []).bind
    (collectHookEntries ((isObj (src.settings.bind fun o => get o "hooks")).getD []))

def nonHookKeys (src : Loadout) : Obj := (src.settings.getD []).filter fun f => f.1 ≠ "hooks"

def srcServers (src : Loadout) : Obj := (isObj (src.mcp.bind fun o => get o "mcpServers")).getD []

/-- What is there already is skipped, the rest is added. -/
def addMissing : Obj → Obj → Obj × List String × List String
  | cur, [] => (cur, [], [])
  | cur, (k, v) :: rest =>
    if hasProperty cur k then
      let r := addMissing cur rest
      (r.1, r.2.1, k :: r.2.2)
    else
      let r := addMissing (set cur k v) rest
      (r.1, k :: r.2.1, r.2.2)

def eventEntries : Option Json → List Json
  | some (.arr entries) => entries
  | _ => []

def addHooks : Obj → HookEntries → Obj
  | cur, [] => cur
  | cur, (event, entries) :: rest =>
    addHooks (set cur event (.arr (eventEntries (get cur event) ++ entries))) rest

def hookRecords (entries : HookEntries) : List HookRecord :=
  entries.flatMap fun x => x.2.map fun entry => ⟨x.1, entry⟩

def mergeSettings (file : ConfigFile) (keys : Obj) (hooks : HookEntries) :
    ConfigFile × List String × List String :=
  if keys ≠ [] ∨ hooks ≠ [] then
    let r := addMissing ((readJson file).getD []) keys
    let cur :=
      if hooks ≠ [] then set r.1 "hooks" (.obj (addHooks ((isObj (get r.1 "hooks")).getD []) hooks))
      else r.1
    (writeJson cur, r.2)
  else (file, [], [])

def mergeServers (file : ConfigFile) (servers : Obj) : ConfigFile × List String × List String :=
  if servers ≠ [] then
    let cur := (readJson file).getD []
    let r := addMissing ((isObj (get cur "mcpServers")).getD []) servers
    (writeJson (set cur "mcpServers" (.obj r.1)), r.2)
  else (file, [], [])

def applyLoadoutMerges (src : Loadout) (hooks : HookEntries) (ws : Workspace) :
    Workspace × MergeRecord :=
  let s := mergeSettings ws.settings (nonHookKeys src) hooks
  let m := mergeServers ws.mcp (srcServers src)
  ({ ws with settings := s.1, mcp := m.1 },
    { settingsKeys := s.2.1
      mcpServers := m.2.1
      hooks := hookRecords hooks
      skipped := s.2.2.map ("settings.json:" ++ ·) ++ m.2.2.map (".mcp.json:" ++ ·) })

def deleteAll (o : Obj) (keys : List String) : Obj := keys.foldl delete o

/-- The first entry of the event with the recorded text is taken out. -/
def removeHook (cur : Obj) (h : HookRecord) : Obj :=
  match get cur h.event with
  | some (.arr entries) =>
    let left := entries.eraseP fun e => stringify e = stringify h.entry
    if left = [] then delete cur h.event else set cur h.event (.arr left)
  | _ => cur

def dropIfEmpty (cur : Obj) (k : String) (fields : Obj) : Obj :=
  if fields = [] then delete cur k else set cur k (.obj fields)

def storeJson (cur : Obj) : ConfigFile := if cur = [] then .absent else writeJson cur

def revertSettings (file : ConfigFile) (keys : List String) (hooks : List HookRecord) :
    ConfigFile :=
  if keys ≠ [] ∨ hooks ≠ [] then
    match readJson file with
    | none => file
    | some cur =>
      let cur := deleteAll cur keys
      match isObj (get cur "hooks") with
      | none => storeJson cur
      | some curHooks =>
        if hooks ≠ [] then storeJson (dropIfEmpty cur "hooks" (hooks.foldl removeHook curHooks))
        else storeJson cur
  else file

def revertServers (file : ConfigFile) (names : List String) : ConfigFile :=
  if names ≠ [] then
    match readJson file with
    | none => file
    | some cur =>
      match isObj (get cur "mcpServers") with
      | none => file
      | some servers => storeJson (dropIfEmpty cur "mcpServers" (deleteAll servers names))
  else file

/-- The loop over the recorded files; none when it was left by an exception. -/
def removeFiles : Tree → List Path → Tree × Option Unit
  | tree, [] => (tree, some ())
  | tree, path :: rest =>
    match rm tree path with
    | none => (tree, none)
    | some tree => removeFiles tree rest

def removeBlock (file : Option Text) (id : LoadoutId) : Option Text :=
  match file with
  | none => none
  | some prior =>
    let stripped := trim (stripBlock prior id)
    if stripped = [] then none else some (stripped ++ ['\n'])

def revertLoadoutFiles (ws : Workspace) (rec : InstalledLoadout) : Workspace × Option Unit :=
  match removeFiles ws.tree rec.files with
  | (tree, none) => ({ ws with tree }, none)
  | (tree, some ()) =>
    ({ ws with
        tree
        claudeMd := if rec.merges.claudeMd then removeBlock ws.claudeMd rec.id else ws.claudeMd },
      some ())

def revertLoadoutMerges (ws : Workspace) (merges : Merges) : Workspace :=
  { ws with
    settings := revertSettings ws.settings merges.settingsKeys merges.hooks
    mcp := revertServers ws.mcp merges.mcpServers }

/-- An install that throws leaves what it has done, and no record. -/
def installLoadout (library : LoadoutId → Option Loadout) (ws : Workspace) (id : LoadoutId) :
    Workspace :=
  match library id with
  | none => ws
  | some src =>
    match hookEntries src with
    | none => ws
    | some hooks =>
      match applyLoadoutFiles src ws id with
      | (ws, none) => ws
      | (ws, some applied) =>
        let merged := applyLoadoutMerges src hooks ws
        let record : InstalledLoadout :=
          { id
            files := applied.files
            merges :=
              { claudeMd := applied.claudeMd
                settingsKeys := merged.2.settingsKeys
                mcpServers := merged.2.mcpServers
                hooks := merged.2.hooks.map fun h => { h with entry := written h.entry } } }
        { merged.1 with installed := ws.installed.filter (fun l => l.id ≠ id) ++ [record] }

def uninstallLoadout (ws : Workspace) (id : LoadoutId) : Workspace :=
  match ws.installed.find? fun l => l.id = id with
  | none => ws
  | some rec =>
    match revertLoadoutFiles ws rec with
    | (ws, none) => ws
    | (ws, some ()) =>
      { revertLoadoutMerges ws rec.merges with
        installed := ws.installed.filter fun l => l.id ≠ id }

inductive Action
  | install (id : LoadoutId)
  | uninstall (id : LoadoutId)

def step (library : LoadoutId → Option Loadout) (ws : Workspace) : Action → Option Workspace
  | .install id => some (installLoadout library ws id)
  | .uninstall id => some (uninstallLoadout ws id)

end ClaudeFleet.Loadout
