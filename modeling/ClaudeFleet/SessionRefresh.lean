import ClaudeFleet.FederationComplete

/-! Refreshing a loaded session list. A fresh first page goes on top of the rows that were loaded
before, while the sessions of the source move to the front and new ones arrive. -/
namespace ClaudeFleet.Federation
open Transition

variable {D : Type}

/-- A cursor as the key that `compareSessionKey` takes. -/
def SessionCursor.keyed (c : SessionCursor) : Session Unit := ⟨[], c.id, some c.lastActiveAt, ()⟩

def compareCursors (a b : SessionCursor) : ℤ := compareSessionKey a.keyed b.keyed

/-- The fresh page says all there is to say of the source: nothing was loaded of it, the page is the
whole source, or it reaches past what was loaded. -/
def supersedes (prev : Option (SourcePage D)) (edge : Option SessionCursor) : Bool :=
  match prev, edge with
  | some p, some e => p.next.any fun c => compareCursors c e ≤ 0
  | _, _ => true

/-- The rows that stay: past the edge of the fresh page, and not on it. -/
def olderRows (prev page : List (Session D)) (edge : SessionCursor) : List (Session D) :=
  prev.filter fun r => compareCursors (cursorOf r) edge > 0 && seenKey r ∉ page.map seenKey

def pageOf (pages : List (SourcePage D)) (origin : Origin) : Option (SourcePage D) :=
  pages.find? fun p => p.origin = origin

def refreshSessionPage (cur : MergedSessions D) (page : SourcePage D) : MergedSessions D :=
  let prev := pageOf cur.pages page.origin
  let rest := cur.pages.filter fun p => p.origin ≠ page.origin
  match prev, page.next with
  | some p, some edge =>
    if supersedes prev page.next then mergeSessionPages (rest ++ [page])
    else mergeSessionPages
      (rest ++ [⟨page.origin, page.rows ++ olderRows p.rows page.rows edge, p.next⟩])
  | _, _ => mergeSessionPages (rest ++ [page])

/-- The sources with their sessions, what is loaded of them, and for each source the sessions it had
when its first page was last read. -/
structure View (D : Type) where
  rows : Origin → List (Session D) := fun _ => []
  loaded : Option (MergedSessions D) := none
  known : Origin → List JsString := fun _ => []

def View.source (s : View D) (origin : Origin) : Source D := ⟨origin, s.rows origin⟩

inductive ViewAction (D : Type)
  | insert (origin : Origin) (session : Session D)
  /-- A session of the source becomes active again. -/
  | bump (origin : Origin) (session : Session D)
  | refresh (origin : Origin) (limit : ℕ)
  | append (origin : Origin) (limit : ℕ)
  | replace (origin : Origin) (limit : ℕ)

def sameSession (a b : Session D) : Bool := a.id = b.id ∧ a.workspaceId = b.workspaceId

/-- `refreshedRemote`: the first page of all is merged by itself. -/
def refreshed (loaded : Option (MergedSessions D)) (page : SourcePage D) : MergedSessions D :=
  match loaded with
  | some m => refreshSessionPage m page
  | none => mergeSessionPages [page]

def View.learn (s : View D) (origin : Origin) : View D :=
  { s with known := Function.update s.known origin ((s.rows origin).map Session.id) }

def viewStep (s : View D) : ViewAction D → Option (View D)
  | .insert origin r =>
    if r.id ∉ (s.rows origin).map Session.id ∧ 0 ∉ r.workspaceId then
      some { s with rows := Function.update s.rows origin (s.rows origin ++ [r]) }
    else none
  | .bump origin r =>
    if (s.rows origin).any fun x => sameSession x r ∧ x.lastActiveAt.getD 0 ≤ r.lastActiveAt.getD 0
    then
      some { s with
        rows := Function.update s.rows origin
          ((s.rows origin).map fun x => if sameSession x r then r else x) }
    else none
  | .refresh origin limit =>
    if 1 ≤ limit then
      some { s.learn origin with
        loaded := some (refreshed s.loaded (sessionsPage (s.source origin) none limit)) }
    else none
  | .append origin limit =>
    match s.loaded.bind fun m => (m.more.find? fun x => x.1 = origin).map fun x => (m, x.2) with
    | some (m, c) =>
      if 1 ≤ limit then
        some { s with
          loaded := some (appendSessionPage m (sessionsPage (s.source origin) (some c) limit)) }
      else none
    | none => none
  | .replace origin limit =>
    match s.loaded with
    | some m =>
      if 1 ≤ limit then
        some { s.learn origin with
          loaded := some (replaceSessionPage m (sessionsPage (s.source origin) none limit)) }
      else none
    | none => none

/-- What is loaded of one source. -/
def View.page (s : View D) (origin : Origin) : Option (SourcePage D) :=
  s.loaded.bind fun m => pageOf m.pages origin

/-- The row is after the cursor, and so a page still to come; after no cursor there is none. -/
def After (next : Option SessionCursor) (r : Session D) : Prop :=
  ∃ c ∈ next, c.order < sessionOrder r

/-- The session is not loaded, and no page to come will have it. -/
def Missing (p : SourcePage D) (r : Session D) : Prop :=
  r.id ∉ p.rows.map Session.id ∧ ¬After p.next r

/-- The loaded rows and the rows after the cursor are the whole source. -/
def NoGap (s : View D) (origin : Origin) : Prop :=
  ∃ p, s.page origin = some p ∧ ∀ r ∈ s.rows origin, ¬Missing p r

/-- With nothing more to load, what the source had at its last first page is loaded. -/
def KnownLoaded (s : View D) (origin : Origin) : Prop :=
  ∀ p, s.page origin = some p → p.next = none →
    ∀ id ∈ s.known origin, id ∈ p.rows.map Session.id

instance (next : Option SessionCursor) (r : Session D) : Decidable (After next r) :=
  inferInstanceAs (Decidable (∃ c ∈ next, _))

instance (p : SourcePage D) (r : Session D) : Decidable (Missing p r) :=
  inferInstanceAs (Decidable (_ ∧ _))

/-- The sessions that a refresh has to bring are on its page, and none that the source had at its
last first page has moved over the cursor when the last page is loaded. -/
def Fits (s : View D) : ViewAction D → Prop
  | .refresh origin limit => ∀ p ∈ s.page origin,
      supersedes (some p) (sessionsPage (s.source origin) none limit).next = false →
        ∀ r ∈ s.rows origin, Missing p r → r ∈ (sessionsPage (s.source origin) none limit).rows
  | .append origin limit => ∀ p ∈ s.page origin,
      (sessionsPage (s.source origin) p.next limit).next = none →
        ∀ r ∈ s.rows origin, r.id ∈ s.known origin → ¬Missing p r
  | _ => True

instance [DecidableEq D] (s : View D) (a : ViewAction D) : Decidable (Fits s a) :=
  match a with
  | .refresh .. => inferInstanceAs (Decidable (∀ p ∈ _, _ → ∀ r ∈ _, _ → _))
  | .append .. => inferInstanceAs (Decidable (∀ p ∈ _, _ → ∀ r ∈ _, _ → _))
  | .insert .. | .bump .. | .replace .. => isTrue trivial

/-! Pages. -/

theorem compareCursors_nonpos (a b : SessionCursor) :
    compareCursors a b ≤ 0 ↔ a.order ≤ b.order := compareSessionKey_nonpos a.keyed b.keyed

theorem compareCursors_pos (r : Session D) (e : SessionCursor) :
    compareCursors (cursorOf r) e > 0 ↔ e.order < sessionOrder r := by
  rw [gt_iff_lt, ← not_le, compareCursors_nonpos, not_le]
  rfl

/-- A page has the rows after its cursor up to its own last row. -/
theorem mem_sessionsPage {src : Source D} (h : src.Keyed) {after : Option SessionCursor} {limit : ℕ}
    (hlimit : 1 ≤ limit) {r : Session D} :
    r ∈ (sessionsPage src after limit).rows ↔ r ∈ src.rows ∧
      (∀ c ∈ after, c.order < sessionOrder r) ∧
      ∀ e ∈ (sessionsPage src after limit).next, sessionOrder r ≤ e.order := by
  have hloaded := sessionsPage_loaded h hlimit
    (List.Perm.refl (Keyset.upto sessionOrder src.rows (after.map SessionCursor.order)))
  have hbeyond : Keyset.Beyond sessionOrder (after.map SessionCursor.order) r ↔
      ∀ c ∈ after, c.order < sessionOrder r := by
    cases after <;> simp [Keyset.Beyond]
  have hpage : r ∈ (sessionsPage src after limit).rows →
      r ∈ src.rows ∧ ∀ c ∈ after, c.order < sessionOrder r := by
    intro hr
    have hmem := List.mem_of_mem_take (List.mem_of_mem_take hr)
    rw [List.mem_insertionSort, List.mem_filter, decide_eq_true_eq] at hmem
    exact ⟨hmem.1, hbeyond.mp hmem.2⟩
  have hnot : (∀ c ∈ after, c.order < sessionOrder r) →
      r ∉ Keyset.upto sessionOrder src.rows (after.map SessionCursor.order) := by
    intro hlt hmem
    rw [Keyset.upto, List.mem_filter, decide_eq_true_eq] at hmem
    exact hmem.2 (hbeyond.mpr hlt)
  cases hnext : (sessionsPage src after limit).next with
  | none =>
    rw [hnext] at hloaded
    refine ⟨fun hr => ⟨(hpage hr).1, (hpage hr).2, by simp⟩, ?_⟩
    rintro ⟨hmem, hlt, -⟩
    exact (List.mem_append.mp (hloaded.mem_iff.mpr hmem)).resolve_left (hnot hlt)
  | some e =>
    rw [hnext] at hloaded
    have hupto : r ∈ Keyset.upto sessionOrder src.rows (some e.order) ↔
        r ∈ src.rows ∧ sessionOrder r ≤ e.order := by
      simp [Keyset.upto, Keyset.Beyond]
    constructor
    · intro hr
      have hmem := hupto.mp (hloaded.mem_iff.mp (List.mem_append_right _ hr))
      refine ⟨hmem.1, (hpage hr).2, fun e' he' => ?_⟩
      obtain rfl := Option.some.inj he'
      exact hmem.2
    · rintro ⟨hmem, hlt, hle⟩
      have hin := hloaded.mem_iff.mpr (hupto.mpr ⟨hmem, hle e rfl⟩)
      exact (List.mem_append.mp hin).resolve_left (hnot hlt)

theorem sessionsPage_origin (src : Source D) (after : Option SessionCursor) (limit : ℕ) :
    (sessionsPage src after limit).origin = src.origin := rfl

theorem pageOf_append_self (pages : List (SourcePage D)) (q : SourcePage D) :
    pageOf ((pages.filter fun p => p.origin ≠ q.origin) ++ [q]) q.origin = some q := by
  unfold pageOf
  rw [List.find?_append]
  have hnone : (pages.filter fun p => p.origin ≠ q.origin).find? (fun p => p.origin = q.origin) =
      none := by
    rw [List.find?_eq_none]
    intro p hp
    simpa using (List.mem_filter.mp hp).2
  rw [hnone]
  simp

theorem pageOf_append_other {pages : List (SourcePage D)} {q : SourcePage D} {origin : Origin}
    (h : origin ≠ q.origin) :
    pageOf ((pages.filter fun p => p.origin ≠ q.origin) ++ [q]) origin = pageOf pages origin := by
  unfold pageOf
  have hq : [q].find? (fun p => decide (p.origin = origin)) = none := by
    simp [Ne.symm h]
  rw [List.find?_append, hq, Option.or_none, List.find?_filter]
  refine List.find?_congr fun p _ => ?_
  by_cases hp : p.origin = origin
  · simp [hp, h]
  · simp [hp]

/-- The pages after one source's page was put in the place of what was loaded of it. -/
structure Swapped (pages pages' : List (SourcePage D)) (q : SourcePage D) : Prop where
  self : pageOf pages' q.origin = some q
  other : ∀ origin, origin ≠ q.origin → pageOf pages' origin = pageOf pages origin
  nodup : (pages.map SourcePage.origin).Nodup → (pages'.map SourcePage.origin).Nodup

theorem swapped_filter (pages : List (SourcePage D)) (q : SourcePage D) :
    Swapped pages ((pages.filter fun p => p.origin ≠ q.origin) ++ [q]) q :=
  ⟨pageOf_append_self pages q, fun _ h => pageOf_append_other h, fun h => nodup_replaced h q⟩

/-- What a refresh leaves of its source. -/
def splice (prev : Option (SourcePage D)) (page : SourcePage D) : SourcePage D :=
  match prev, page.next with
  | some p, some edge =>
    if supersedes prev page.next then page
    else ⟨page.origin, page.rows ++ olderRows p.rows page.rows edge, p.next⟩
  | _, _ => page

theorem splice_origin (prev : Option (SourcePage D)) (page : SourcePage D) :
    (splice prev page).origin = page.origin := by
  unfold splice
  split
  · split_ifs <;> rfl
  · rfl

theorem refreshSessionPage_eq (cur : MergedSessions D) (page : SourcePage D) :
    refreshSessionPage cur page = mergeSessionPages
      ((cur.pages.filter fun p => p.origin ≠ page.origin) ++
        [splice (pageOf cur.pages page.origin) page]) := by
  unfold refreshSessionPage splice
  dsimp only
  split
  · split_ifs <;> rfl
  · rfl

/-! What is loaded, against a source that moves. -/

/-- The source still has the session of a loaded row, and has it no later in its order. -/
def Tracks (rows : List (Session D)) (l : Session D) : Prop :=
  ∃ r ∈ rows, r.id = l.id ∧ r.workspaceId = l.workspaceId ∧ sessionOrder r ≤ sessionOrder l

theorem tracks_self {rows : List (Session D)} {r : Session D} (h : r ∈ rows) : Tracks rows r :=
  ⟨r, h, rfl, rfl, le_refl _⟩

section Splice
variable {src : Source D} (hkeyed : src.Keyed) {limit : ℕ} (hlimit : 1 ≤ limit)
include hkeyed hlimit

/-- Of a first page alone, what is missing is after its end. -/
theorem not_missing_page {r : Session D} (hr : r ∈ src.rows) :
    ¬Missing (sessionsPage src none limit) r := by
  rintro ⟨hid, hafter⟩
  refine hid (List.mem_map_of_mem ((mem_sessionsPage hkeyed hlimit).mpr ⟨hr, by simp, ?_⟩))
  intro e he
  exact not_lt.mp fun hlt => hafter ⟨e, he, hlt⟩

/-- A loaded row whose session is past the edge stays, or the page has its session. -/
theorem mem_olderRows {p : SourcePage D} (htracks : ∀ l ∈ p.rows, Tracks src.rows l)
    {edge : SessionCursor} {r l : Session D} (hr : r ∈ src.rows) (hl : l ∈ p.rows)
    (hid : l.id = r.id) (hedge : edge.order < sessionOrder r)
    (hpage : r ∉ (sessionsPage src none limit).rows) :
    l ∈ olderRows p.rows (sessionsPage src none limit).rows edge := by
  obtain ⟨r', hr', hid', hws, hle⟩ := htracks l hl
  obtain rfl : r' = r := hkeyed.eq_of_id hr' hr (hid'.trans hid)
  have hpos : compareCursors (cursorOf l) edge > 0 :=
    (compareCursors_pos l edge).mpr (hedge.trans_le hle)
  have hfresh : seenKey l ∉ (sessionsPage src none limit).rows.map seenKey := by
    intro hmem
    obtain ⟨x, hx, hseen⟩ := List.mem_map.mp hmem
    have hxsrc := ((mem_sessionsPage hkeyed hlimit).mp hx).1
    have hnul : 0 ∉ l.workspaceId := hws ▸ hkeyed.noNul r' hr
    have hsame := append_zero_inj (hkeyed.noNul x hxsrc) hnul hseen
    obtain rfl : x = r' := hkeyed.eq_of_id hxsrc hr (hsame.2.trans hid)
    exact hpage hx
  exact List.mem_filter.mpr ⟨hl, by simp [hpos, hfresh]⟩

theorem not_missing_splice {prev : Option (SourcePage D)}
    (htracks : ∀ p, prev = some p → ∀ l ∈ p.rows, Tracks src.rows l)
    (hfits : ∀ p, prev = some p →
      supersedes (some p) (sessionsPage src none limit).next = false →
        ∀ r ∈ src.rows, Missing p r → r ∈ (sessionsPage src none limit).rows)
    {r : Session D} (hr : r ∈ src.rows) :
    ¬Missing (splice prev (sessionsPage src none limit)) r := by
  unfold splice
  split
  · next p edge hedge =>
    split_ifs with hsup
    · exact not_missing_page hkeyed hlimit hr
    · rintro ⟨hid, hafter⟩
      simp only [List.map_append, List.mem_append, not_or] at hid
      have hpage : r ∉ (sessionsPage src none limit).rows :=
        fun hmem => hid.1 (List.mem_map_of_mem hmem)
      have hlt : edge.order < sessionOrder r := by
        by_contra hle
        refine hpage ((mem_sessionsPage hkeyed hlimit).mpr ⟨hr, by simp, fun e he => ?_⟩)
        obtain rfl : edge = e := Option.some.inj (hedge.symm.trans he)
        exact not_lt.mp hle
      refine hpage (hfits p rfl (by simpa using hsup) r hr ⟨fun hmem => ?_, hafter⟩)
      obtain ⟨l, hl, hlid⟩ := List.mem_map.mp hmem
      have hold := mem_olderRows hkeyed hlimit (htracks p rfl) hr hl hlid hlt hpage
      exact hid.2 (hlid ▸ List.mem_map_of_mem hold)
  · exact not_missing_page hkeyed hlimit hr

theorem tracks_splice {prev : Option (SourcePage D)}
    (htracks : ∀ p, prev = some p → ∀ l ∈ p.rows, Tracks src.rows l) {l : Session D}
    (hl : l ∈ (splice prev (sessionsPage src none limit)).rows) : Tracks src.rows l := by
  have hpage : ∀ l ∈ (sessionsPage src none limit).rows, Tracks src.rows l :=
    fun l hl => tracks_self ((mem_sessionsPage hkeyed hlimit).mp hl).1
  unfold splice at hl
  split at hl
  · next p edge hedge =>
    split_ifs at hl
    · exact hpage l hl
    · rcases List.mem_append.mp hl with hl | hl
      · exact hpage l hl
      · exact htracks p rfl l (List.mem_filter.mp hl).1
  · exact hpage l hl

end Splice

/-! Steps and runs. -/

structure Good (s : View D) : Prop where
  keyed : ∀ origin, (s.source origin).Keyed
  merged : ∀ m, s.loaded = some m → m = mergeSessionPages m.pages ∧
    (m.pages.map SourcePage.origin).Nodup
  tracks : ∀ origin p, s.page origin = some p → ∀ l ∈ p.rows, Tracks (s.rows origin) l
  exist : ∀ origin, ∀ id ∈ s.known origin, ∃ r ∈ s.rows origin, r.id = id
  all : ∀ origin, KnownLoaded s origin

/-- A change of one source's rows that loses no session and moves none back. -/
theorem Good.change {s : View D} (h : Good s) (origin : Origin) (rows : List (Session D))
    (hkeyed : Source.Keyed ⟨origin, rows⟩)
    (hmoves : ∀ r ∈ s.rows origin, Tracks rows r) :
    Good { s with rows := Function.update s.rows origin rows } := by
  have hrows : ∀ o, ∀ r ∈ s.rows o, Tracks (Function.update s.rows origin rows o) r := by
    intro o r hr
    by_cases ho : o = origin
    · subst ho
      rw [Function.update_self]
      exact hmoves r hr
    · rw [Function.update_of_ne ho]
      exact tracks_self hr
  refine ⟨fun o => ?_, h.merged, fun o p hp l hl => ?_, fun o id hid => ?_, h.all⟩
  · by_cases ho : o = origin
    · subst ho
      simpa [View.source] using hkeyed
    · simpa [View.source, Function.update_of_ne ho] using h.keyed o
  · obtain ⟨r, hr, hid, hws, hle⟩ := h.tracks o p hp l hl
    obtain ⟨r', hr', hid', hws', hle'⟩ := hrows o r hr
    exact ⟨r', hr', hid'.trans hid, hws'.trans hws, hle'.trans hle⟩
  · obtain ⟨r, hr, rfl⟩ := h.exist o id hid
    obtain ⟨r', hr', hid', -, -⟩ := hrows o r hr
    exact ⟨r', hr', hid'⟩

def View.pages (s : View D) : List (SourcePage D) := (s.loaded.map MergedSessions.pages).getD []

theorem View.page_eq (s : View D) (origin : Origin) : s.page origin = pageOf s.pages origin := by
  cases h : s.loaded with
  | none => simp [View.page, View.pages, h, pageOf]
  | some m => simp [View.page, View.pages, h]

/-- One source's page is put in the place of what was loaded of it. -/
theorem Good.load {s t : View D} (h : Good s) {pages : List (SourcePage D)} {q : SourcePage D}
    (hrows : t.rows = s.rows) (hloaded : t.loaded = some (mergeSessionPages pages))
    (hswap : Swapped s.pages pages q) (htracks : ∀ l ∈ q.rows, Tracks (s.rows q.origin) l)
    (hknown : ∀ origin, origin ≠ q.origin → t.known origin = s.known origin)
    (hexist : ∀ id ∈ t.known q.origin, ∃ r ∈ s.rows q.origin, r.id = id)
    (hall : q.next = none → ∀ id ∈ t.known q.origin, id ∈ q.rows.map Session.id) : Good t := by
  have hpage : ∀ o, t.page o = pageOf pages o := by
    intro o
    simp only [View.page, hloaded, Option.bind_some]
    rfl
  have hself : ∀ p, t.page q.origin = some p → p = q := by
    intro p hp
    rw [hpage, hswap.self] at hp
    exact (Option.some.inj hp).symm
  have hother : ∀ o, o ≠ q.origin → t.page o = s.page o := by
    intro o ho
    rw [hpage, hswap.other o ho, View.page_eq]
  refine ⟨fun o => ?_, fun m hm => ?_, fun o p hp => ?_, fun o => ?_, fun o p hp hnext => ?_⟩
  · simpa [View.source, hrows] using h.keyed o
  · rw [hloaded] at hm
    obtain rfl := Option.some.inj hm
    refine ⟨rfl, hswap.nodup ?_⟩
    cases hs : s.loaded with
    | none => simp [View.pages, hs]
    | some m => simpa [View.pages, hs] using (h.merged m hs).2
  · rw [hrows]
    by_cases ho : o = q.origin
    · subst ho
      rw [hself p hp]
      exact htracks
    · rw [hother o ho] at hp
      exact h.tracks o p hp
  · rw [hrows]
    by_cases ho : o = q.origin
    · subst ho
      exact hexist
    · rw [hknown o ho]
      exact h.exist o
  · by_cases ho : o = q.origin
    · subst ho
      rw [hself p hp] at hnext ⊢
      exact hall hnext
    · rw [hother o ho] at hp
      rw [hknown o ho]
      exact h.all o p hp hnext

/-- The first page alone, or on top of what was loaded: nothing is missing, and so what the source
has is loaded when nothing is after the cursor. -/
theorem known_of_noGap {rows : List (Session D)} {q : SourcePage D}
    (h : ∀ r ∈ rows, ¬Missing q r) (hnext : q.next = none) :
    ∀ id ∈ rows.map Session.id, id ∈ q.rows.map Session.id := by
  intro id hid
  obtain ⟨r, hr, rfl⟩ := List.mem_map.mp hid
  by_contra hnot
  exact h r hr ⟨hnot, by simp [After, hnext]⟩

theorem refreshed_pages (s : View D) (page : SourcePage D) :
    refreshed s.loaded page = mergeSessionPages
      ((s.pages.filter fun p => p.origin ≠ page.origin) ++
        [splice (pageOf s.pages page.origin) page]) := by
  cases h : s.loaded with
  | none => simp [refreshed, View.pages, h, pageOf, splice]
  | some m => simp [refreshed, View.pages, h, refreshSessionPage_eq]

theorem swapped_splice (pages : List (SourcePage D)) (page : SourcePage D) :
    Swapped pages ((pages.filter fun p => p.origin ≠ page.origin) ++
      [splice (pageOf pages page.origin) page]) (splice (pageOf pages page.origin) page) := by
  have h := swapped_filter pages (splice (pageOf pages page.origin) page)
  simp only [splice_origin] at h
  exact h

/-- What a refresh leaves, and what it leaves nothing out of. -/
theorem Good.refresh {s t : View D} {origin : Origin} {limit : ℕ} (h : Good s)
    (hfits : Fits s (.refresh origin limit))
    (hs : viewStep s (.refresh origin limit) = some t) : Good t ∧ NoGap t origin := by
  simp only [viewStep] at hs
  split_ifs at hs with hlimit
  obtain rfl := Option.some.inj hs
  set page := sessionsPage (s.source origin) none limit with hpage
  set q := splice (pageOf s.pages origin) page with hq
  have horigin : q.origin = origin := splice_origin _ _
  have htracks : ∀ p, pageOf s.pages origin = some p → ∀ l ∈ p.rows, Tracks (s.rows origin) l := by
    intro p hp
    exact h.tracks origin p ((s.page_eq origin).trans hp)
  have hnogap : ∀ r ∈ s.rows origin, ¬Missing q r := by
    intro r hr
    refine not_missing_splice (h.keyed origin) hlimit htracks (fun p hp => ?_) hr
    exact hfits p ((s.page_eq origin).trans hp)
  have hswap : Swapped s.pages ((s.pages.filter fun p => p.origin ≠ page.origin) ++ [q]) q :=
    swapped_splice s.pages page
  refine ⟨h.load rfl (congrArg some (refreshed_pages s page)) hswap ?_ ?_ ?_ ?_, ?_⟩
  · rw [horigin]
    exact fun l hl => tracks_splice (h.keyed origin) hlimit htracks hl
  · rw [horigin]
    intro o ho
    exact Function.update_of_ne ho _ _
  · rw [horigin]
    intro id hid
    simpa [View.learn] using hid
  · intro hnext id hid
    rw [horigin] at hid
    exact known_of_noGap hnogap hnext id (by simpa [View.learn] using hid)
  · refine ⟨q, ?_, hnogap⟩
    have hself := hswap.self
    rw [horigin] at hself
    simp only [View.page, refreshed_pages, Option.bind_some]
    exact hself

theorem Good.replace {s t : View D} {origin : Origin} {limit : ℕ} (h : Good s)
    (hs : viewStep s (.replace origin limit) = some t) : Good t := by
  simp only [viewStep] at hs
  split at hs
  · next m hm =>
    split_ifs at hs with hlimit
    obtain rfl := Option.some.inj hs
    set page := sessionsPage (s.source origin) none limit
    have hpages : s.pages = m.pages := by simp [View.pages, hm]
    have hswap : Swapped s.pages
        ((m.pages.filter fun p => p.origin ≠ page.origin) ++ [page]) page := by
      rw [hpages]
      exact swapped_filter m.pages page
    refine h.load rfl rfl hswap ?_ ?_ ?_ ?_
    · exact fun l hl => tracks_self ((mem_sessionsPage (h.keyed origin) hlimit).mp hl).1
    · exact fun o ho => Function.update_of_ne ho _ _
    · intro id hid
      simpa [View.learn, page, View.source, sessionsPage] using hid
    · intro hnext id hid
      refine known_of_noGap (fun r (hr : r ∈ s.rows origin) => ?_) hnext id
        (by simpa [View.learn, page, View.source, sessionsPage] using hid)
      exact not_missing_page (h.keyed origin) hlimit hr
  · cases hs

theorem Good.find_more {s : View D} (h : Good s) {m : MergedSessions D} {origin : Origin}
    {x : Origin × SessionCursor} (hm : s.loaded = some m)
    (hx : (m.more.find? fun x => x.1 = origin) = some x) :
    ∃ p, pageOf m.pages origin = some p ∧ p.next = some x.2 := by
  obtain ⟨hmerged, hnodup⟩ := h.merged m hm
  have hmem := List.mem_of_find?_eq_some hx
  have horigin : x.1 = origin := by simpa using List.find?_some hx
  rw [hmerged] at hmem
  obtain ⟨p, hp, hpo, hnext⟩ := mem_more.mp hmem
  refine ⟨p, ?_, hnext⟩
  cases hfind : pageOf m.pages origin with
  | none =>
    have := List.find?_eq_none.mp hfind p hp
    simp [hpo, horigin] at this
  | some p' =>
    have hp' := List.mem_of_find?_eq_some hfind
    have hpo' : p'.origin = origin := by simpa using List.find?_some hfind
    rw [List.inj_on_of_nodup_map hnodup hp' hp (hpo'.trans (hpo.trans horigin).symm)]

theorem Good.append {s t : View D} {origin : Origin} {limit : ℕ} (h : Good s)
    (hfits : Fits s (.append origin limit))
    (hs : viewStep s (.append origin limit) = some t) : Good t := by
  simp only [viewStep] at hs
  split at hs
  · next m c hmc =>
    split_ifs at hs with hlimit
    obtain rfl := Option.some.inj hs
    obtain ⟨m', hm, hx⟩ := Option.bind_eq_some_iff.mp hmc
    obtain ⟨x, hfind, heq⟩ := Option.map_eq_some_iff.mp hx
    obtain ⟨rfl, rfl⟩ := Prod.mk.inj heq
    obtain ⟨p, hp, hnext⟩ := h.find_more hm hfind
    have hpages : s.pages = m'.pages := by simp [View.pages, hm]
    have hsp : s.page origin = some p := by
      rw [View.page_eq, hpages]
      exact hp
    set page := sessionsPage (s.source origin) (some x.2) limit with hpage
    set q : SourcePage D := ⟨origin, p.rows ++ page.rows, page.next⟩ with hq
    have hmerge : appendSessionPage m' page =
        mergeSessionPages ((m'.pages.filter fun p => p.origin ≠ origin) ++ [q]) := by
      have hprev : (m'.pages.find? fun p => p.origin = page.origin) = some p := hp
      unfold appendSessionPage
      rw [hprev]
      rfl
    have hswap : Swapped s.pages ((m'.pages.filter fun p => p.origin ≠ origin) ++ [q]) q := by
      rw [hpages]
      exact swapped_filter m'.pages q
    refine h.load rfl (congrArg some hmerge) hswap ?_ (fun _ _ => rfl) (h.exist origin) ?_
    · intro l hl
      rcases List.mem_append.mp hl with hl | hl
      · exact h.tracks origin p hsp l hl
      · exact tracks_self ((mem_sessionsPage (h.keyed origin) hlimit).mp hl).1
    · intro hlast id hid
      obtain ⟨r, hr, rfl⟩ := h.exist origin id hid
      rw [hq, List.map_append, List.mem_append]
      by_contra hnot
      rw [not_or] at hnot
      refine hfits p hsp (by rw [hnext]; exact hlast) r hr hid ⟨hnot.1, ?_⟩
      rintro ⟨c, hc, hlt⟩
      obtain rfl : x.2 = c := Option.some.inj (hnext.symm.trans hc)
      refine hnot.2 (List.mem_map_of_mem ?_)
      refine (mem_sessionsPage (h.keyed origin) hlimit).mpr ⟨hr, fun d hd => ?_, fun e he => ?_⟩
      · obtain rfl := Option.some.inj hd
        exact hlt
      · have hnone : page.next = none := hlast
        rw [hnone] at he
        cases he
  · cases hs

theorem sameSession_iff {a b : Session D} :
    sameSession a b = true ↔ a.id = b.id ∧ a.workspaceId = b.workspaceId := by
  simp [sameSession]

theorem Good.step {s t : View D} {a : ViewAction D} (h : Good s) (hfits : Fits s a)
    (hs : viewStep s a = some t) : Good t := by
  cases a with
  | insert origin r =>
    simp only [viewStep] at hs
    split_ifs at hs with hnew
    obtain rfl := Option.some.inj hs
    have hk := h.keyed origin
    refine h.change origin _ ⟨?_, ?_⟩ fun x hx => tracks_self (List.mem_append_left _ hx)
    · rw [List.map_append, List.map_singleton, List.nodup_append]
      refine ⟨hk.ids, List.nodup_singleton _, fun a ha b hb hab => ?_⟩
      obtain rfl := List.mem_singleton.mp hb
      exact hnew.1 (hab ▸ ha)
    · intro x hx
      rcases List.mem_append.mp hx with hx | hx
      · exact hk.noNul x hx
      · rw [List.mem_singleton.mp hx]
        exact hnew.2
  | bump origin r =>
    simp only [viewStep] at hs
    split_ifs at hs with hany
    obtain rfl := Option.some.inj hs
    have hk := h.keyed origin
    obtain ⟨x, hx, hxr⟩ := List.any_eq_true.mp hany
    rw [decide_eq_true_eq, sameSession_iff] at hxr
    -- a session is as it was, or it is `r`
    have hsame : ∀ y ∈ s.rows origin, sameSession y r = true → y = x := by
      intro y hy hyr
      exact hk.eq_of_id hy hx ((sameSession_iff.mp hyr).1.trans hxr.1.1.symm)
    refine h.change origin _ ⟨?_, ?_⟩ fun y hy => ?_
    · rw [List.map_map]
      have hids : (s.rows origin).map (Session.id ∘ fun y => if sameSession y r then r else y) =
          (s.rows origin).map Session.id := by
        refine List.map_congr_left fun y hy => ?_
        simp only [Function.comp_apply]
        split_ifs with hyr
        · exact (sameSession_iff.mp hyr).1.symm
        · rfl
      rw [hids]
      exact hk.ids
    · intro z hz
      obtain ⟨y, hy, rfl⟩ := List.mem_map.mp hz
      split_ifs with hyr
      · rw [← hxr.1.2]
        exact hk.noNul x hx
      · exact hk.noNul y hy
    · refine ⟨_, List.mem_map_of_mem hy, ?_⟩
      split_ifs with hyr
      · obtain rfl := hsame y hy hyr
        refine ⟨hxr.1.1.symm, hxr.1.2.symm, ?_⟩
        unfold sessionOrder SessionCursor.order cursorOf
        rw [Prod.Lex.toLex_le_toLex]
        rcases lt_or_eq_of_le hxr.2 with hlt | heq
        · exact Or.inl (by simpa using hlt)
        · exact Or.inr ⟨by simp [heq], by simp [hxr.1.1]⟩
      · exact ⟨rfl, rfl, le_refl _⟩
  | refresh origin limit => exact (h.refresh hfits hs).1
  | append origin limit => exact h.append hfits hs
  | replace origin limit => exact h.replace hs

theorem good_start : Good ({} : View D) := by
  refine ⟨fun o => ⟨by simp [View.source], by simp [View.source]⟩, ?_, ?_, ?_, ?_⟩
  · intro m hm
    cases hm
  · intro o p hp
    simp [View.page] at hp
  · intro o id hid
    simp at hid
  · intro o p hp
    simp [View.page] at hp

/-- In a run in which the sessions fit, what a source had when its first page was last read is
loaded once nothing more of it is to come, and no refresh leaves a gap. -/
theorem refresh_noGap {actions : List (ViewAction D)} {s : View D}
    (hrun : run viewStep {} actions = some s) (hfits : Along viewStep Fits {} actions) :
    (∀ origin, KnownLoaded s origin) ∧
      ∀ before origin limit, actions = before ++ [.refresh origin limit] → NoGap s origin := by
  have hgood : ∀ {as : List (ViewAction D)} {s : View D}, run viewStep {} as = some s →
      Along viewStep Fits {} as → Good s := fun hr hok =>
    run_invariant_along (fun _ _ _ h hok hs => h.step hok hs) good_start hr hok
  refine ⟨(hgood hrun hfits).all, fun before origin limit hsplit => ?_⟩
  subst hsplit
  obtain ⟨u, hu, hlast⟩ := run_append.mp hrun
  have hok := along_append.mp hfits
  obtain ⟨t, ht, hnil⟩ := run_cons hlast
  obtain rfl : t = s := by simpa [run] using hnil
  exact ((hgood hu hok.1).refresh (hok.2 u hu).1 ht).2

def remote : Origin := js "remote"

def session (id : String) (lastActiveAt : ℤ) : Session Unit :=
  ⟨js "w", js id, some lastActiveAt, ()⟩

/-- Two sessions are loaded, which is all there is. -/
def twoLoaded : List (ViewAction Unit) :=
  [.insert remote (session "a" 10), .insert remote (session "b" 9), .refresh remote 2]

/-- One more arrives, and the first moves to the front. -/
def oneArrives : List (ViewAction Unit) :=
  twoLoaded ++ [.insert remote (session "x" 20), .bump remote (session "a" 21), .refresh remote 2]

theorem refresh_noGap_oneArrives :
    ∃ s, run viewStep {} oneArrives = some s ∧ (∀ origin, KnownLoaded s origin) ∧
      ∀ before origin limit, oneArrives = before ++ [.refresh origin limit] → NoGap s origin := by
  have hsome : (run viewStep {} oneArrives).isSome = true := by decide +kernel
  obtain ⟨s, hs⟩ := Option.isSome_iff_exists.mp hsome
  have hfits : Along viewStep Fits {} oneArrives := by decide +kernel
  exact ⟨s, hs, refresh_noGap hs hfits⟩

/-- Three arrive, and a page has room for two. -/
def threeArrive : List (ViewAction Unit) :=
  twoLoaded ++ [.insert remote (session "x" 20), .insert remote (session "y" 19),
    .insert remote (session "z" 18), .refresh remote 2]

/-- The refreshed list has nothing more to load, and it lacks the third. -/
theorem refresh_leaves_gap :
    ∃ s, run viewStep {} threeArrive = some s ∧ ¬KnownLoaded s remote ∧ ¬NoGap s remote := by
  have hgap : (run viewStep {} threeArrive).any (fun s => (s.page remote).any fun p =>
      p.next = none ∧ js "z" ∈ s.known remote ∧ js "z" ∉ p.rows.map Session.id ∧
        ∃ r ∈ s.rows remote, Missing p r) = true := by decide +kernel
  obtain ⟨s, hs, hany⟩ := (Option.any_eq_true _ _).mp hgap
  obtain ⟨p, hp, hfacts⟩ := (Option.any_eq_true _ _).mp hany
  obtain ⟨hnext, hknown, hlost, r, hr, hmissing⟩ := of_decide_eq_true hfacts
  refine ⟨s, hs, fun hall => hlost (hall p hp hnext _ hknown), ?_⟩
  rintro ⟨q, hq, hgapless⟩
  obtain rfl : p = q := Option.some.inj (hp.symm.trans hq)
  exact hgapless r hr hmissing

end ClaudeFleet.Federation
