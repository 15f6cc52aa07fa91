import ClaudeFleet.TokenScope

/-! The key of a token query, the replies of the API, and the token a reply gives if GitHub scoped
it as asked. -/
namespace ClaudeFleet.TokenScope
open Js

variable {L : Platform}

def commas (texts : List Text) : Text := [(44 : UInt16)].intercalate texts

/-! The key. -/

def writeEntry (e : Text × Level) : Text := quote e.1 ++ (58 :: quote e.2.text)

/-- The query as JSON writes it. -/
def key (q : TokenQuery L) : Text :=
  js "\x7b\"repositories\":[" ++ (commas (q.repositories.names.map quote) ++ [93]) ++
    (js ",\"permissions\":\x7b" ++ (commas (q.permissions.entries.rows.map writeEntry) ++ [125]) ++
      [125])

/-- A text that JSON writes as it is. -/
def Plain (s : Text) : Prop := ∀ u ∈ s, 32 ≤ u ∧ u < 128 ∧ u ≠ 34 ∧ u ≠ 92

instance (s : Text) : Decidable (Plain s) :=
  List.decidableBAll (fun u => 32 ≤ u ∧ u < 128 ∧ u ≠ 34 ∧ u ≠ 92) s

theorem escapeUnit_plain {u : UInt16} (h : 32 ≤ u ∧ u < 128 ∧ u ≠ 34 ∧ u ≠ 92) :
    escapeUnit u = [u] ∧ isLead u = false := by
  obtain ⟨hlow, hhigh, hquote, hslash⟩ := h
  have hlead : isLead u = false := by
    simp only [isLead, Bool.and_eq_false_iff, decide_eq_false_iff_not, UInt16.le_iff_toNat_le,
      UInt16.lt_iff_toNat_lt, UInt16.reduceToNat] at *
    omega
  have htrail : isTrail u = false := by
    simp only [isTrail, Bool.and_eq_false_iff, decide_eq_false_iff_not, UInt16.le_iff_toNat_le,
      UInt16.lt_iff_toNat_lt, UInt16.reduceToNat] at *
    omega
  have hne : ∀ v : UInt16, v < 32 → u ≠ v := by
    rintro v hv rfl
    exact absurd hv (UInt16.not_lt.mpr hlow)
  refine ⟨?_, hlead⟩
  unfold escapeUnit
  rw [if_neg hquote, if_neg hslash, if_neg (hne 8 (by decide)), if_neg (hne 9 (by decide)),
    if_neg (hne 10 (by decide)), if_neg (hne 12 (by decide)), if_neg (hne 13 (by decide)), if_neg]
  simp only [hlead, htrail, Bool.false_eq_true, or_false]
  exact UInt16.not_lt.mpr hlow

theorem quoteUnits_plain {s : Text} (h : Plain s) : quoteUnits s = s := by
  induction s using quoteUnits.induct with
  | case1 => rfl
  | case2 u => exact (escapeUnit_plain (h u List.mem_cons_self)).1
  | case3 u v s hpair ih =>
    have := (escapeUnit_plain (h u List.mem_cons_self)).2
    simp [this] at hpair
  | case4 u v s hpair ih =>
    rw [quoteUnits, if_neg hpair, ih fun w hw => h w (List.mem_cons_of_mem _ hw),
      (escapeUnit_plain (h u List.mem_cons_self)).1]
    rfl

theorem selfDelimiting_quote : SelfDelimiting Plain quote := by
  intro a b s t ha hb h
  unfold quote at h
  rw [quoteUnits_plain ha, quoteUnits_plain hb] at h
  exact SelfDelimiting.quoted 34 a b s t (fun hm => (ha _ hm).2.2.1 rfl)
    (fun hm => (hb _ hm).2.2.1 rfl) h

theorem Level.text_injective : Function.Injective Level.text := by
  intro a b h
  have := congrArg (fun s => Level.ofValue (.str s)) h
  simpa using this

theorem Level.plain (level : Level) : Plain level.text := by
  cases level <;> decide

theorem selfDelimiting_writeEntry :
    SelfDelimiting (fun e : Text × Level => Plain e.1 ∧ True) writeEntry :=
  selfDelimiting_quote.pair (Q := fun _ => True)
    ((selfDelimiting_quote.comap Level.text_injective fun level _ => level.plain).lead [58])

theorem quote_ne (close : UInt16) (h : close ≠ 34) (a s t : Text) : quote a ++ s ≠ close :: t :=
  fun heq => h (List.cons.inj heq).1.symm

theorem repoName_plain {s : Text} (h : isRepoName s = true) : Plain s := by
  intro u hu
  have := fits_units h u hu
  simp only [isRepoUnit, isLoginUnit, isUpper, isLower, isDigit, Bool.or_eq_true, Bool.and_eq_true,
    decide_eq_true_eq, beq_iff_eq] at this
  simp only [UInt16.le_iff_toNat_le, ← UInt16.toNat_inj, UInt16.lt_iff_toNat_lt, ne_eq,
    UInt16.reduceToNat] at this ⊢
  omega

theorem permissionName_plain {s : Text} (h : isPermissionName s = true) : Plain s := by
  intro u hu
  have := fits_units h u hu
  simp only [isPermissionUnit, isLower, Bool.or_eq_true, Bool.and_eq_true, decide_eq_true_eq,
    beq_iff_eq] at this
  simp only [UInt16.le_iff_toNat_le, ← UInt16.toNat_inj, UInt16.lt_iff_toNat_lt, ne_eq,
    UInt16.reduceToNat] at this ⊢
  omega

/-- Two queries of one key ask for the same. -/
theorem key_injective {q q' : TokenQuery L} (h : key q = key q') : q = q' := by
  have hrepos := selfDelimiting_quote.separated 44 93 (by decide)
    (quote_ne 93 (by decide))
  have hperms := selfDelimiting_writeEntry.separated 44 125 (by decide) (by
    intro e s t
    rw [writeEntry, List.append_assoc]
    exact quote_ne 125 (by decide) _ _ _)
  have hall := (hrepos.lead (js "\x7b\"repositories\":[")).pair
    ((hperms.lead (js ",\"permissions\":\x7b")).trail [125])
  have heq := hall.injOn
    (a := (q.repositories.names, q.permissions.entries.rows))
    (b := (q'.repositories.names, q'.permissions.entries.rows))
    ⟨fun r hr => repoName_plain (q.repositories.named r hr),
      fun e he => ⟨permissionName_plain (q.permissions.named e he), trivial⟩⟩
    ⟨fun r hr => repoName_plain (q'.repositories.named r hr),
      fun e he => ⟨permissionName_plain (q'.permissions.named e he), trivial⟩⟩ h
  obtain ⟨⟨names, _, _, _⟩, ⟨⟨rows, _⟩, _⟩, _⟩ := q
  obtain ⟨⟨names', _, _, _⟩, ⟨⟨rows', _⟩, _⟩, _⟩ := q'
  obtain ⟨rfl, rfl⟩ := Prod.mk.inj heq
  rfl

/-- Queries for the same repositories and permissions have one key, whatever the order in which they
were named. -/
theorem key_eq_of_same {q q' : TokenQuery L}
    (hr : ∀ r, r ∈ q.repositories.names ↔ r ∈ q'.repositories.names)
    (hp : ∀ k, q.permissions.get? k = q'.permissions.get? k) : key q = key q' := by
  have hrows : q.permissions.entries.rows = q'.permissions.entries.rows := by
    refine List.Perm.eq_of_pairwise ?_ q.sorted q'.sorted ?_
    · intro a b ha hb hab hba
      have hkey := L.le_antisymm a.1 b.1 (q.permissions.named a ha) (q'.permissions.named b hb)
        hab hba
      have hget := hp a.1
      unfold Permissions.get? at hget
      rw [JsMap.get?_eq_some.mpr (show (a.1, a.2) ∈ _ from ha), hkey,
        JsMap.get?_eq_some.mpr (show (b.1, b.2) ∈ _ from hb)] at hget
      exact Prod.ext hkey (Option.some.inj hget)
    · refine (List.perm_ext_iff_of_nodup q.permissions.entries.nodup.of_map
        q'.permissions.entries.nodup.of_map).mpr ?_
      rintro ⟨k, level⟩
      have hget := hp k
      unfold Permissions.get? at hget
      rw [← JsMap.get?_eq_some, ← JsMap.get?_eq_some, hget]
  unfold key
  rw [Repositories.eq_of_mem hr, hrows]

/-! What a call of the API gives. -/

inductive Endpoint
  | installation
  | accessTokens

def Endpoint.method : Endpoint → Text
  | .installation => js "GET"
  | .accessTokens => js "POST"

/-- The path of a call, with the numbers taken out. -/
def Endpoint.path : Endpoint → Text
  | .installation => js "/app/installations/:id"
  | .accessTokens => js "/app/installations/:id/access_tokens"

structure Headers where
  retryAfter : Option Text := none
  remaining : Option Text := none
  reset : Option Text := none

/-- A response: none at all, one that is not ok, or one that is; a body that is no JSON has no
value. -/
inductive Response
  | unreachable
  | failed (status : ℕ) (headers : Headers) (body : Option Value)
  | ok (body : Option Value)

def MAX_BACKOFF_MS : ℚ := 60000

def finiteValue : Number → Option ℚ
  | .finite q => some q
  | .negZero => some 0
  | .infinity _ | .nan => none

/-- What a nonempty header says as a number. -/
def headerNumber (L : Platform) (h : Option Text) : Option ℚ :=
  match h with
  | none | some [] => none
  | some s => finiteValue (L.toNumber s)

def rateLimitMs (L : Platform) (status : ℕ) (h : Headers) (now : ℤ) : Option ℚ :=
  let limited := status = 429 ∨
    status = 403 ∧ (h.retryAfter.getD [] ≠ [] ∨ h.remaining = some (js "0"))
  if limited then
    let ms := match headerNumber L h.retryAfter, headerNumber L h.reset with
      | some retry, _ => retry * 1000
      | none, some reset => if 0 < reset then reset * 1000 - now else MAX_BACKOFF_MS
      | none, none => MAX_BACKOFF_MS
    some (min (max ms 1000) MAX_BACKOFF_MS)
  else none

def blockedError : MintError := .appToken (js "GitHub rate limit; retry shortly") 503

/-- The text of a number in an error, which is a natural one. -/
def natText (n : ℤ) : Text := js (toString n)

def failure (L : Platform) (e : Endpoint) (status : ℕ) (h : Headers) (body : Option Value)
    (now : ℤ) : MintError :=
  match rateLimitMs L status h now with
  | some limited =>
    .appToken (js "GitHub rate limit; retry in " ++ natText (limited / 1000).ceil ++ js " s") 503
  | none =>
    if status = 404 then
      .appToken (js "GitHub " ++ e.method ++
        js " installation → 404; check github.installationId") 502
    else
      let msg := match body.bind (Value.get · "message") with
        | some (.str m) => m.take 200
        | _ => []
      .appToken (js "GitHub " ++ e.method ++ js " " ++ e.path ++ js " → " ++ natText status ++
        (if msg = [] then [] else js ": " ++ msg)) (if status = 422 then 400 else 502)

/-- The value of a call, or its error. -/
def callResult (L : Platform) (e : Endpoint) (r : Response) (now : ℤ) : Except MintError Value :=
  match r with
  | .unreachable => .error (.appToken (js "GitHub is unreachable") 503)
  | .failed status headers body => .error (failure L e status headers body now)
  | .ok (some body) => .ok body
  | .ok none => .error .other

/-- Until when a response blocks the calls after it. -/
def blockUntil (L : Platform) (r : Response) (now : ℤ) : Option ℚ :=
  match r with
  | .failed status headers _ => (rateLimitMs L status headers now).map (now + ·)
  | .unreachable | .ok _ => none

def readLogin (j : Value) : Except MintError Text :=
  match j with
  | .null => .error .other
  | _ =>
    match (j.get "account").bind (Value.get · "login") with
    | some (.str login) => .ok login
    | _ => .error (.appToken (js "the installation has no account login") 502)

/-! The token of a reply. -/

/-- The name of an entry of a reply's repositories; nothing can be read of null. -/
def grantedName (L : Platform) : Value → Option Text
  | .null => none
  | r => some (L.toLowerCase (((r.get "name").map (Value.display L.numberText)).getD
      (js "undefined")))

def grantedNames (L : Platform) (j : Value) : Option (List Text) :=
  match j.get "repositories" with
  | none | some .null => some []
  | some (.arr _ items) => items.mapM (grantedName L)
  | some _ => none

def expiresAt (L : Platform) (j : Value) : Option ℤ :=
  match j.get "expires_at" with
  | some (.str s) => L.parseDate s
  | _ => none

def readToken (q : TokenQuery L) (j : Value) : Except MintError ScopedToken :=
  match j with
  | .null => .error .other
  | _ =>
    match j.get "token", expiresAt L j with
    | some (.str token), some expiresAt =>
      match grantedNames L j with
      | none => .error .other
      | some names =>
        let granted := sortTexts names
        if commas granted ≠ commas q.repositories.names then
          .error (.appToken (js "GitHub scoped the token to other repositories") 502)
        else if within (j.get "permissions") q.permissions.withMetadata = false then
          .error (.appToken (js "GitHub granted the token wider permissions than asked") 502)
        else .ok { token, expiresAt, repositories := granted }
    | _, _ => .error (.appToken (js "GitHub returned no token") 502)

/-- A reply that GitHub scoped as asked, and its token. -/
structure Issues (q : TokenQuery L) (j : Value) (t : ScopedToken) : Prop where
  token : j.get "token" = some (.str t.token)
  expires : expiresAt L j = some t.expiresAt
  repositories : ∃ names, grantedNames L j = some names ∧ names.Perm q.repositories.names ∧
    t.repositories = q.repositories.names
  permissions : ∃ fields, j.get "permissions" = some (.obj fields) ∧ ∀ e ∈ fields, ∃ level max,
    Level.ofValue e.2 = some level ∧ level.rank ≤ max.rank ∧
      (q.permissions.get? e.1 = some max ∨ e.1 = js "metadata" ∧ max = .read)

/-- Where the names of a reply, joined, are those of the query, none of them has a comma. -/
def Unjoined (q : TokenQuery L) (j : Value) : Prop :=
  ∀ names, grantedNames L j = some names →
    commas (sortTexts names) = commas q.repositories.names → ∀ s ∈ names, 44 ∉ s

instance (q : TokenQuery L) (j : Value) : Decidable (Unjoined q j) :=
  inferInstanceAs (Decidable (∀ names ∈ grantedNames L j,
    commas (sortTexts names) = commas q.repositories.names → ∀ s ∈ names, 44 ∉ s))

theorem commas_injective {names : List Text} {r : Repositories} (hc : ∀ s ∈ names, 44 ∉ s)
    (h : commas names = commas r.names) : names = r.names := by
  have hr := fun s (hs : s ∈ r.names) => r.comma_notMem hs
  refine join_inj hc hr ?_ r.ne_nil h
  rintro rfl
  refine join_ne_nil 44 r.ne_nil (fun s hs hnil => ?_) h.symm
  have := r.named s hs
  simp [hnil, isRepoName, fits] at this

theorem issues_of_readToken {q : TokenQuery L} {j : Value} {token : ScopedToken}
    (h : readToken q j = .ok token) (hj : Unjoined q j) : Issues q j token := by
  unfold readToken at h
  split at h
  · cases h
  split at h
  · next text expires htoken hexpires =>
    split at h
    · cases h
    · next names hnames =>
      dsimp only at h
      split_ifs at h with hjoin hwide
      obtain rfl := Except.ok.inj h
      rw [not_not] at hjoin
      have hperm : (sortTexts names).Perm names := sortTexts_perm names
      have hsame := commas_injective
        (fun s hs => hj names hnames hjoin s (hperm.mem_iff.mp hs)) hjoin
      refine ⟨htoken, hexpires, ⟨names, hnames, hsame ▸ hperm.symm, hsame⟩, ?_⟩
      rw [Bool.not_eq_false] at hwide
      unfold within at hwide
      split at hwide
      · next fields hfields =>
        refine ⟨fields, hfields, fun e he => ?_⟩
        have hentry := List.all_eq_true.mp hwide e he
        split at hentry
        · next max level hmax hlevel =>
          exact ⟨level, max, hlevel, of_decide_eq_true hentry,
            Permissions.get?_withMetadata hmax⟩
        · cases hentry
      · cases hwide
  · cases h

end ClaudeFleet.TokenScope
