import ClaudeFleet.JsMap
import ClaudeFleet.JsValue
import ClaudeFleet.SelfDelimiting
import ClaudeFleet.TextOrder

/-! The repositories and permissions of an installation token: what a request may name, what it is
checked against, the key it is cached under, and what of a reply is accepted. -/
namespace ClaudeFleet.TokenScope
open Js

inductive Level
  | read
  | write
  deriving DecidableEq

def Level.rank : Level → ℕ
  | .read => 1
  | .write => 2

def Level.text : Level → Text
  | .read => js "read"
  | .write => js "write"

def Level.ofValue : Value → Option Level
  | .str s => if s = js "read" then some .read else if s = js "write" then some .write else none
  | _ => none

/-- An error with its HTTP status, or one that the code does not make itself. -/
inductive MintError
  | appToken (message : Text) (status : ℕ)
  | other
  deriving DecidableEq

def isUpper (u : UInt16) : Bool := 65 ≤ u && u ≤ 90

def isLower (u : UInt16) : Bool := 97 ≤ u && u ≤ 122

def isLoginUnit (u : UInt16) : Bool := isUpper u || isLower u || isDigit u || u == 45

def isRepoUnit (u : UInt16) : Bool := isLoginUnit u || u == 95 || u == 46

def isPermissionUnit (u : UInt16) : Bool := isLower u || u == 95

/-- A text of 1 to `max` units of one kind. -/
def fits (unit : UInt16 → Bool) (max : ℕ) (s : Text) : Bool :=
  decide (1 ≤ s.length) && decide (s.length ≤ max) && s.all unit

def isLogin (s : Text) : Bool := fits isLoginUnit 39 s

def isRepoName (s : Text) : Bool := fits isRepoUnit 100 s

def isPermissionName (s : Text) : Bool := fits isPermissionUnit 64 s

def lowerUnit (u : UInt16) : UInt16 := if isUpper u then u + 32 else u

/-- What the language does with case, collation, dates and numbers. -/
structure Platform where
  toLowerCase : Text → Text
  /-- The comparison of two texts by locale does not put the first after the second. -/
  localeLe : Text → Text → Bool
  parseDate : Text → Option ℤ
  toNumber : Text → Number
  numberText : Number → Text
  lower_ascii : ∀ s, (∀ u ∈ s, u < 128) → toLowerCase s = s.map lowerUnit
  le_total : ∀ s t, localeLe s t = true ∨ localeLe t s = true
  le_trans : ∀ s t u, localeLe s t = true → localeLe t u = true → localeLe s u = true
  le_antisymm : ∀ s t, isPermissionName s = true → isPermissionName t = true →
    localeLe s t = true → localeLe t s = true → s = t

/-- Permissions in the order they were set. -/
structure Permissions where
  entries : JsMap Text Level
  named : ∀ e ∈ entries.rows, isPermissionName e.1 = true

/-- Repository names in lower case, ascending, each once. -/
structure Repositories where
  names : List Text
  ne_nil : names ≠ []
  named : ∀ r ∈ names, isRepoName r = true
  ascending : names.Pairwise fun r t => unitLe r t ∧ r ≠ t

structure TokenRequest where
  owner : Option Text
  repositories : Repositories
  permissions : Option Permissions

/-- What GitHub is asked for; the permissions are in the order of their names. -/
structure TokenQuery (L : Platform) where
  repositories : Repositories
  permissions : Permissions
  sorted : permissions.entries.rows.Pairwise fun a b => L.localeLe a.1 b.1 = true

structure ScopedToken where
  token : Text
  expiresAt : ℤ
  repositories : List Text
  deriving DecidableEq

/-! Names. -/

theorem fits_units {unit : UInt16 → Bool} {max : ℕ} {s : Text} (h : fits unit max s = true) :
    ∀ u ∈ s, unit u = true := by
  unfold fits at h
  rw [Bool.and_eq_true] at h
  exact List.all_eq_true.mp h.2

theorem repoUnit_ascii {u : UInt16} (h : isRepoUnit u = true) : u < 128 ∧ u ≠ 44 := by
  simp only [isRepoUnit, isLoginUnit, isUpper, isLower, isDigit, Bool.or_eq_true, Bool.and_eq_true,
    decide_eq_true_eq, beq_iff_eq] at h
  simp only [UInt16.le_iff_toNat_le, ← UInt16.toNat_inj, UInt16.lt_iff_toNat_lt, ne_eq,
    UInt16.reduceToNat] at h ⊢
  omega

theorem repoUnit_lower {u : UInt16} (h : isRepoUnit u = true) : isRepoUnit (lowerUnit u) = true := by
  unfold lowerUnit
  split_ifs with hu
  · have hlow : isLower (u + 32) = true := by
      simp only [isUpper, isLower, Bool.and_eq_true, decide_eq_true_eq, UInt16.le_iff_toNat_le,
        UInt16.toNat_add, UInt16.reduceToNat] at hu ⊢
      omega
    simp [isRepoUnit, isLoginUnit, hlow]
  · exact h

theorem isRepoName_lower (L : Platform) {s : Text} (h : isRepoName s = true) :
    isRepoName (L.toLowerCase s) = true := by
  have hunits := fits_units h
  rw [L.lower_ascii s fun u hu => (repoUnit_ascii (hunits u hu)).1]
  unfold isRepoName fits at h ⊢
  simp only [Bool.and_eq_true, decide_eq_true_eq, List.length_map, List.all_eq_true] at h ⊢
  refine ⟨h.1, fun v hv => ?_⟩
  obtain ⟨u, hu, rfl⟩ := List.mem_map.mp hv
  exact repoUnit_lower (h.2 u hu)

theorem Repositories.comma_notMem (r : Repositories) {s : Text} (hs : s ∈ r.names) : 44 ∉ s :=
  fun hmem => (repoUnit_ascii (fits_units (r.named s hs) _ hmem)).2 rfl

/-! Repositories. -/

theorem nodup_eraseDups (texts : List Text) : texts.eraseDups.Nodup := by
  induction hn : texts.length using Nat.strong_induction_on generalizing texts with
  | _ n ih =>
    cases texts with
    | nil => simp
    | cons s texts =>
      rw [List.eraseDups_cons, List.nodup_cons]
      refine ⟨by simp, ih _ ?_ _ rfl⟩
      have := List.length_filter_le (fun t => !t == s) texts
      simp only [List.length_cons] at hn
      omega

/-- The names of a request in lower case, each once, sorted. -/
def Repositories.ofNames (L : Platform) (names : List Text) (hne : names ≠ [])
    (hnamed : ∀ r ∈ names, isRepoName r = true) : Repositories where
  names := sortTexts (names.map L.toLowerCase).eraseDups
  ne_nil := by
    intro h
    obtain ⟨r, hr⟩ := List.exists_mem_of_ne_nil names hne
    have hmem : L.toLowerCase r ∈ sortTexts (names.map L.toLowerCase).eraseDups := by
      rw [sortTexts, List.mem_insertionSort, List.mem_eraseDups]
      exact List.mem_map_of_mem hr
    simp [h] at hmem
  named := by
    intro r hr
    unfold sortTexts at hr
    rw [List.mem_insertionSort, List.mem_eraseDups] at hr
    obtain ⟨s, hs, rfl⟩ := List.mem_map.mp hr
    exact isRepoName_lower L (hnamed s hs)
  ascending := by
    have hnodup := ((List.perm_insertionSort unitLe _).nodup_iff).mpr
      (nodup_eraseDups (names.map L.toLowerCase))
    exact (List.pairwise_insertionSort unitLe _).and hnodup

/-- The names a request is left with are its own, in lower case. -/
theorem Repositories.mem_ofNames {L : Platform} {names : List Text} {hne : names ≠ []}
    {hnamed : ∀ r ∈ names, isRepoName r = true} {s : Text} :
    s ∈ (ofNames L names hne hnamed).names ↔ ∃ r ∈ names, L.toLowerCase r = s := by
  unfold ofNames sortTexts
  rw [List.mem_insertionSort, List.mem_eraseDups, List.mem_map]

/-- Lists of repositories with the same members are the same. -/
theorem Repositories.eq_of_mem {r t : Repositories} (h : ∀ s, s ∈ r.names ↔ s ∈ t.names) :
    r.names = t.names := by
  have hr : r.names.Nodup := r.ascending.imp And.right
  have ht : t.names.Nodup := t.ascending.imp And.right
  refine List.Perm.eq_of_pairwise (fun a b _ _ (h : unitLe a b) h' => unitLe_antisymm h h')
    (r.ascending.imp And.left) (t.ascending.imp And.left) ?_
  exact (List.perm_ext_iff_of_nodup hr ht).mpr h

/-! Permissions. -/

def Permissions.get? (p : Permissions) (k : Text) : Option Level := p.entries.get? k

def Permissions.empty : Permissions where
  entries := JsMap.empty
  named _ h := absurd h List.not_mem_nil

def Permissions.set (p : Permissions) (k : Text) (level : Level)
    (hk : isPermissionName k = true) : Permissions where
  entries := p.entries.set k level
  named := by
    rintro ⟨k', level'⟩ he
    have hget := JsMap.get?_eq_some.mpr he
    rw [JsMap.get?_set] at hget
    split_ifs at hget with heq
    · exact heq ▸ hk
    · exact p.named _ (JsMap.get?_eq_some.mp hget)

theorem Permissions.get?_set (p : Permissions) (k k' : Text) (level : Level)
    (hk : isPermissionName k = true) :
    (p.set k level hk).get? k' = if k' = k then some level else p.get? k' :=
  JsMap.get?_set p.entries k k' level

def localeLe (L : Platform) (a b : Text × Level) : Prop := L.localeLe a.1 b.1 = true

instance (L : Platform) : DecidableRel (localeLe L) :=
  fun a b => inferInstanceAs (Decidable (L.localeLe a.1 b.1 = true))

instance (L : Platform) : Std.Total (localeLe L) := ⟨fun a b => L.le_total a.1 b.1⟩

instance (L : Platform) : IsTrans (Text × Level) (localeLe L) :=
  ⟨fun a b c => L.le_trans a.1 b.1 c.1⟩

/-- The entries in the order of their names. -/
def Permissions.sort (L : Platform) (p : Permissions) : Permissions where
  entries := ⟨p.entries.rows.insertionSort (localeLe L),
    (((List.perm_insertionSort _ _).map _).nodup_iff).mpr p.entries.nodup⟩
  named e he := p.named e ((List.mem_insertionSort _).mp he)

theorem Permissions.sorted_sort (L : Platform) (p : Permissions) :
    (p.sort L).entries.rows.Pairwise fun a b => L.localeLe a.1 b.1 = true :=
  List.pairwise_insertionSort (localeLe L) _

theorem Permissions.get?_sort (L : Platform) (p : Permissions) (k : Text) :
    (p.sort L).get? k = p.get? k := by
  have hmem : ∀ level, (p.sort L).get? k = some level ↔ p.get? k = some level := by
    intro level
    unfold Permissions.get?
    rw [JsMap.get?_eq_some, JsMap.get?_eq_some]
    exact List.mem_insertionSort _
  cases h : p.get? k with
  | some level => exact (hmem level).mpr h
  | none =>
    cases hs : (p.sort L).get? k with
    | none => rfl
    | some level => exact absurd ((hmem level).mp hs) (by simp [h])

/-- The default and ceiling where the configuration gives none. -/
def DEFAULT_PERMISSIONS : Permissions where
  entries := ⟨[(js "contents", .write), (js "pull_requests", .write), (js "issues", .write),
    (js "checks", .read), (js "actions", .read), (js "statuses", .read),
    (js "metadata", .read)], by decide +kernel⟩
  named := by decide +kernel

/-- Permissions as the object they are. -/
def Permissions.value (p : Permissions) : Value :=
  .obj (p.entries.rows.map fun e => (e.1, .str e.2.text))

@[simp] theorem Level.ofValue_text (level : Level) : ofValue (.str level.text) = some level := by
  cases level <;> decide

theorem Level.ofValue_eq_some {v : Value} {level : Level} (h : ofValue v = some level) :
    v = .str level.text := by
  cases v with
  | str s =>
    simp only [ofValue] at h
    split_ifs at h with hr hw
    · exact hr ▸ Option.some.inj h ▸ rfl
    · exact hw ▸ Option.some.inj h ▸ rfl
  | _ => simp [ofValue] at h

/-- Every entry of `v` is in `ceiling` at the same or a lower level. -/
def within (v : Option Value) (ceiling : Permissions) : Bool :=
  match v with
  | some (.obj fields) =>
    fields.all fun e =>
      match ceiling.get? e.1, Level.ofValue e.2 with
      | some max, some level => decide (level.rank ≤ max.rank)
      | _, _ => false
  | _ => false

/-- Each permission of one is in the other at the same or a higher level. -/
def Covered (get ceiling : Text → Option Level) : Prop :=
  ∀ k level, get k = some level → ∃ max, ceiling k = some max ∧ level.rank ≤ max.rank

theorem Covered.refl (get : Text → Option Level) : Covered get get :=
  fun _ level h => ⟨level, h, le_rfl⟩

theorem within_value {p ceiling : Permissions} (h : within (some p.value) ceiling = true) :
    Covered p.get? ceiling.get? := by
  intro k level hk
  have hmem : (k, Value.str level.text) ∈
      p.entries.rows.map fun e => (e.1, Value.str e.2.text) :=
    List.mem_map_of_mem (f := fun e : Text × Level => (e.1, Value.str e.2.text))
      (JsMap.get?_eq_some.mp hk)
  have hall := List.all_eq_true.mp h _ hmem
  simp only [Level.ofValue_text] at hall
  split at hall
  · next max level' hmax hlevel =>
    obtain rfl := Option.some.inj hlevel
    exact ⟨max, hmax, of_decide_eq_true hall⟩
  · cases hall

/-! A request. -/

/-- GitHub adds reading of metadata to every token; what a request says of it goes first. -/
def Permissions.withMetadata (p : Permissions) : Permissions :=
  p.entries.rows.attach.foldl (fun m e => m.set e.1.1 e.1.2 (p.named e.1 e.2))
    (Permissions.empty.set (js "metadata") .read (by decide +kernel))

theorem get?_foldl_set (p : Permissions) (k : Text)
    (rows : List {e // e ∈ p.entries.rows}) (m : Permissions) (level : Level)
    (h : (rows.foldl (fun m e => m.set e.1.1 e.1.2 (p.named e.1 e.2)) m).get? k = some level) :
    p.get? k = some level ∨ m.get? k = some level := by
  induction rows generalizing m with
  | nil => exact Or.inr h
  | cons e rows ih =>
    rcases ih _ h with hp | hm
    · exact Or.inl hp
    · rw [Permissions.get?_set] at hm
      split_ifs at hm with hk
      · exact Or.inl (JsMap.get?_eq_some.mpr (hk ▸ Option.some.inj hm ▸ e.2))
      · exact Or.inr hm

theorem Permissions.get?_withMetadata {p : Permissions} {k : Text} {level : Level}
    (h : p.withMetadata.get? k = some level) :
    p.get? k = some level ∨ k = js "metadata" ∧ level = .read := by
  rcases get?_foldl_set p k _ _ level h with hp | hm
  · exact Or.inl hp
  · rw [Permissions.get?_set] at hm
    split_ifs at hm with hk
    · exact Or.inr ⟨hk, (Option.some.inj hm).symm⟩
    · cases hm

def readOwner : Option Value → Except MintError (Option Text)
  | none => .ok none
  | some (.str s) =>
    if isLogin s then .ok (some s) else .error (.appToken (js "owner must be a GitHub login") 400)
  | some _ => .error (.appToken (js "owner must be a GitHub login") 400)

/-- A repository name, but for the two that are no names. -/
def readRepository : Value → Option {s : Text // isRepoName s = true}
  | .str s => if h : isRepoName s = true ∧ s ≠ js "." ∧ s ≠ js ".." then some ⟨s, h.1⟩ else none
  | _ => none

theorem ne_nil_of_mapM {items : List Value} {names : List {s : Text // isRepoName s = true}}
    (hlen : ¬(items.length = 0 ∨ 100 < items.length))
    (h : items.mapM readRepository = some names) : names.map Subtype.val ≠ [] := by
  intro hnil
  rw [List.map_eq_nil_iff] at hnil
  subst hnil
  cases items with
  | nil => simp at hlen
  | cons v items =>
    rw [List.mapM_cons] at h
    cases hv : readRepository v with
    | none => simp [hv] at h
    | some name => cases hi : items.mapM readRepository <;> simp [hv, hi] at h

def readRepositories (L : Platform) : Option Value → Except MintError Repositories
  | some (.arr _ items) =>
    if hlen : items.length = 0 ∨ 100 < items.length then
      .error (.appToken (js "repositories must list 1 to 100 repository names") 400)
    else
      match hnames : items.mapM readRepository with
      | none => .error (.appToken (js "repositories must be repository names") 400)
      | some names =>
        .ok (Repositories.ofNames L (names.map Subtype.val) (ne_nil_of_mapM hlen hnames) (by
          intro r hr
          obtain ⟨s, -, rfl⟩ := List.mem_map.mp hr
          exact s.2))
  | _ => .error (.appToken (js "repositories must list 1 to 100 repository names") 400)

/-- One permission more; a text is not set as the object's prototype. -/
def addPermission (p : Permissions) (e : Text × Value) : Except MintError Permissions :=
  match Level.ofValue e.2 with
  | none => .error (.appToken (js "permissions must map names to \"read\" or \"write\"") 400)
  | some level =>
    if hk : isPermissionName e.1 = true then
      .ok (if e.1 = js "__proto__" then p else p.set e.1 level hk)
    else .error (.appToken (js "permissions must map names to \"read\" or \"write\"") 400)

def readPermissions : Option Value → Except MintError (Option Permissions)
  | none => .ok none
  | some (.obj fields) => some <$> fields.foldlM addPermission .empty
  | some _ => .error (.appToken (js "permissions must be an object") 400)

def validateTokenRequest (L : Platform) (raw : Value) : Except MintError TokenRequest :=
  match raw with
  | .obj _ => do
    let owner ← readOwner (raw.get "owner")
    let repositories ← readRepositories L (raw.get "repositories")
    let permissions ← readPermissions (raw.get "permissions")
    return { owner, repositories, permissions }
  | _ => .error (.appToken (js "request must be an object") 400)

/-- The names that are in the list, in whatever case it has them. -/
def Allowed (L : Platform) (allow : Option (List Text)) (r : Text) : Prop :=
  ∀ names, allow = some names → r ∈ names.map L.toLowerCase

def checkAllow (L : Platform) (allow : Option (List Text)) (v : TokenRequest) :
    Except MintError Unit :=
  match allow with
  | none => .ok ()
  | some names =>
    let outside := v.repositories.names.filter fun r => decide (r ∉ names.map L.toLowerCase)
    if outside = [] then .ok ()
    else .error (.appToken (js "not in github.repositories: " ++ (js ", ").intercalate outside) 403)

def checkOwner (L : Platform) (owner login : Text) : Except MintError Unit :=
  if L.toLowerCase owner = L.toLowerCase login then .ok ()
  else .error (.appToken (js "owner " ++ owner ++ js " is not this installation's account") 403)

/-- What a request asks for under a ceiling, which is also the default. -/
def authorize (L : Platform) (v : TokenRequest) (ceiling : Permissions) :
    Except MintError (TokenQuery L) :=
  if v.permissions.all fun p => within (some p.value) ceiling then
    .ok ⟨v.repositories, (v.permissions.getD ceiling).sort L, Permissions.sorted_sort L _⟩
  else .error (.appToken (js "permissions exceed github.permissions") 403)

theorem allowed_of_checkAllow {L : Platform} {allow : Option (List Text)} {v : TokenRequest}
    (h : checkAllow L allow v = .ok ()) : ∀ r ∈ v.repositories.names, Allowed L allow r := by
  rintro r hr names rfl
  unfold checkAllow at h
  dsimp only at h
  split_ifs at h with hout
  have := List.filter_eq_nil_iff.mp hout r hr
  simpa using this

theorem covered_of_authorize {L : Platform} {v : TokenRequest} {ceiling : Permissions}
    {q : TokenQuery L} (h : authorize L v ceiling = .ok q) :
    q.repositories = v.repositories ∧
    (∀ k, q.permissions.get? k = (v.permissions.getD ceiling).get? k) ∧
    Covered q.permissions.get? ceiling.get? := by
  unfold authorize at h
  split_ifs at h with hin
  obtain rfl := Except.ok.inj h
  refine ⟨rfl, Permissions.get?_sort L _, ?_⟩
  intro k level hk
  rw [Permissions.get?_sort] at hk
  cases hp : v.permissions with
  | none =>
    rw [hp] at hk
    exact Covered.refl _ k level hk
  | some p =>
    rw [hp] at hin hk
    exact within_value hin k level hk

end ClaudeFleet.TokenScope
