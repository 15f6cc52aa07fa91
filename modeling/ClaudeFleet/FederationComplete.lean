import ClaudeFleet.Federation

/-! The merged list is sorted and free of duplicates whatever is loaded. That nothing is missing once
no source has more needs two things of the sources: within one of them an id stands for one session,
since a cursor is a time and an id, and no workspace id has a NUL, which separates the parts of the
key that a merge has seen. -/
namespace ClaudeFleet.Federation
open Transition

theorem codeUnitRank_inj {x y : UInt16} (h : codeUnitRank x.toNat = codeUnitRank y.toNat) :
    x = y := by
  have hx := x.toNat_lt
  have hy := y.toNat_lt
  refine UInt16.toNat_inj.mp ?_
  unfold codeUnitRank at h
  split_ifs at h <;> omega

theorem byteKey_inj {a b : JsString} (h : byteKey a = byteKey b) : a = b :=
  List.map_injective_iff.mpr (fun _ _ hxy => codeUnitRank_inj hxy) h

/-- `compareBytes` is the lexicographic order of the ranks. -/
theorem compareBytes_neg (a b : JsString) : compareBytes a b < 0 ↔ byteKey a < byteKey b := by
  induction a generalizing b with
  | nil =>
    cases b with
    | nil => simp [compareBytes]
    | cons y b =>
      simp only [compareBytes, byteKey, List.map_nil, List.map_cons, List.nil_lt_cons, iff_true,
        List.length_cons]
      omega
  | cons x a ih =>
    cases b with
    | nil =>
      simp only [compareBytes, byteKey, List.map_nil, List.map_cons, List.not_lt_nil, iff_false,
        List.length_cons]
      omega
    | cons y b =>
      simp only [compareBytes, byteKey, List.map_cons, List.cons_lt_cons_iff]
      by_cases hxy : x = y
      · subst hxy
        simpa [byteKey] using ih b
      · have hne : codeUnitRank x.toNat ≠ codeUnitRank y.toNat :=
          fun h => hxy (codeUnitRank_inj h)
        simp only [if_pos hxy, hne, false_and, or_false]
        omega

theorem compareBytes_eq_zero (a b : JsString) : compareBytes a b = 0 ↔ a = b := by
  induction a generalizing b with
  | nil =>
    cases b with
    | nil => simp [compareBytes]
    | cons y b =>
      simp only [compareBytes, List.length_cons, reduceCtorEq, iff_false]
      omega
  | cons x a ih =>
    cases b with
    | nil =>
      simp only [compareBytes, List.length_cons, reduceCtorEq, iff_false]
      omega
    | cons y b =>
      simp only [compareBytes, List.cons.injEq]
      by_cases hxy : x = y
      · subst hxy
        simpa using ih b
      · have hne : codeUnitRank x.toNat ≠ codeUnitRank y.toNat :=
          fun h => hxy (codeUnitRank_inj h)
        simp only [if_pos hxy, hxy, false_and, iff_false]
        omega

theorem compareBytes_nonpos (a b : JsString) : compareBytes a b ≤ 0 ↔ byteKey a ≤ byteKey b := by
  rw [le_iff_lt_or_eq, compareBytes_neg, compareBytes_eq_zero, le_iff_lt_or_eq]
  have hinj : byteKey a = byteKey b ↔ a = b := ⟨byteKey_inj, congrArg byteKey⟩
  rw [hinj]

variable {D : Type}

theorem compareSessionKey_nonpos (a b : Session D) :
    compareSessionKey a b ≤ 0 ↔ sessionOrder a ≤ sessionOrder b := by
  unfold compareSessionKey sessionOrder SessionCursor.order cursorOf
  rw [Prod.Lex.toLex_le_toLex]
  dsimp only
  split_ifs with h
  · have hne : -a.lastActiveAt.getD 0 ≠ -b.lastActiveAt.getD 0 := by omega
    simp only [hne, false_and, or_false]
    omega
  · have heq : -a.lastActiveAt.getD 0 = -b.lastActiveAt.getD 0 := by omega
    rw [compareBytes_nonpos, heq]
    simp

theorem sessionOrder_inj {a b : Session D} (h : sessionOrder a = sessionOrder b) : a.id = b.id := by
  have hpair := toLex.injective h
  exact byteKey_inj (congrArg Prod.snd hpair)

theorem compareSessionKey_eq_zero (a b : Session D) :
    compareSessionKey a b = 0 ↔ sessionOrder a = sessionOrder b := by
  unfold compareSessionKey sessionOrder SessionCursor.order cursorOf
  dsimp only
  rw [toLex_inj, Prod.mk.injEq]
  split_ifs with h
  · constructor
    · intro h0
      exact absurd h0 h
    · rintro ⟨h0, -⟩
      omega
  · rw [compareBytes_eq_zero]
    constructor
    · intro hid
      exact ⟨by omega, by rw [hid]⟩
    · rintro ⟨-, hid⟩
      exact byteKey_inj hid

/-- The local origin comes first. -/
def originOrder (o : Origin) : ℕ ×ₗ List ℕ :=
  toLex (if o = localOrigin then 0 else 1, byteKey o)

theorem originOrder_inj {a b : Origin} (h : originOrder a = originOrder b) : a = b := by
  have hpair := toLex.injective h
  exact byteKey_inj (congrArg Prod.snd hpair)

theorem compareOrigins_nonpos (a b : Origin) :
    compareOrigins a b ≤ 0 ↔ originOrder a ≤ originOrder b := by
  unfold compareOrigins originOrder
  rw [Prod.Lex.toLex_le_toLex]
  by_cases hab : a = b
  · subst hab
    simp
  · rw [if_neg hab]
    by_cases ha : a = localOrigin
    · have hb : b ≠ localOrigin := fun hb => hab (ha.trans hb.symm)
      simp [ha, hb]
    · by_cases hb : b = localOrigin
      · simp [ha, hb]
      · simp [ha, hb, compareBytes_nonpos]

/-- The order of the merged rows. -/
def rowOrder (x : WithOrigin D) : (ℤ ×ₗ List ℕ) ×ₗ (ℕ ×ₗ List ℕ) :=
  toLex (sessionOrder x.row, originOrder x.origin)

theorem compareRows_nonpos (a b : WithOrigin D) :
    compareRows a b ≤ 0 ↔ rowOrder a ≤ rowOrder b := by
  unfold compareRows rowOrder
  rw [Prod.Lex.toLex_le_toLex]
  dsimp only
  split_ifs with h
  · rw [compareSessionKey_nonpos]
    have hne : sessionOrder a.row ≠ sessionOrder b.row :=
      fun heq => h ((compareSessionKey_eq_zero _ _).mpr heq)
    constructor
    · intro hle
      exact Or.inl (lt_of_le_of_ne hle hne)
    · rintro (hlt | ⟨heq, -⟩)
      · exact hlt.le
      · exact absurd heq hne
  · have heq := (compareSessionKey_eq_zero a.row b.row).mp (not_not.mp h)
    rw [compareOrigins_nonpos, heq]
    simp

theorem takeUnseen_nodup (seen : List JsString) (l : List (WithOrigin D)) :
    ((takeUnseen seen l).map fun x => seenKey x.row).Nodup ∧
      ∀ x ∈ takeUnseen seen l, seenKey x.row ∉ seen := by
  induction l generalizing seen with
  | nil => exact ⟨List.nodup_nil, fun x hx => nomatch hx⟩
  | cons r rs ih =>
    unfold takeUnseen
    split_ifs with hseen
    · exact ih seen
    · obtain ⟨hnodup, hnew⟩ := ih (seenKey r.row :: seen)
      constructor
      · rw [List.map_cons, List.nodup_cons]
        refine ⟨fun hmem => ?_, hnodup⟩
        obtain ⟨x, hx, hkey⟩ := List.mem_map.mp hmem
        exact hnew x hx (hkey ▸ List.mem_cons_self)
      · intro x hx
        rcases List.mem_cons.mp hx with rfl | hx
        · exact hseen
        · exact fun hmem => hnew x hx (List.mem_cons_of_mem _ hmem)

/-- A row is taken where it is the first with its key. -/
theorem mem_takeUnseen {seen : List JsString} {l : List (WithOrigin D)} {x : WithOrigin D} :
    x ∈ takeUnseen seen l ↔ seenKey x.row ∉ seen ∧ ∃ before after, l = before ++ x :: after ∧
      ∀ y ∈ before, seenKey y.row ≠ seenKey x.row := by
  induction l generalizing seen with
  | nil => simp [takeUnseen]
  | cons r rs ih =>
    unfold takeUnseen
    split_ifs with hseen
    · rw [ih]
      constructor
      · rintro ⟨hx, before, after, rfl, hbefore⟩
        refine ⟨hx, r :: before, after, rfl, fun y hy => ?_⟩
        rcases List.mem_cons.mp hy with rfl | hy
        · exact fun heq => hx (heq ▸ hseen)
        · exact hbefore y hy
      · rintro ⟨hx, before, after, heq, hbefore⟩
        cases before with
        | nil =>
          obtain ⟨rfl, rfl⟩ := List.cons.inj heq
          exact absurd hseen hx
        | cons b before =>
          obtain ⟨rfl, rfl⟩ := List.cons.inj heq
          exact ⟨hx, before, after, rfl, fun y hy => hbefore y (List.mem_cons_of_mem _ hy)⟩
    · rw [List.mem_cons, ih]
      constructor
      · rintro (rfl | ⟨hx, before, after, rfl, hbefore⟩)
        · exact ⟨hseen, [], rs, rfl, fun y hy => nomatch hy⟩
        · refine ⟨fun hmem => hx (List.mem_cons_of_mem _ hmem), r :: before, after, rfl, ?_⟩
          intro y hy
          rcases List.mem_cons.mp hy with rfl | hy
          · exact fun heq => hx (heq ▸ List.mem_cons_self)
          · exact hbefore y hy
      · rintro ⟨hx, before, after, heq, hbefore⟩
        cases before with
        | nil =>
          obtain ⟨rfl, rfl⟩ := List.cons.inj heq
          exact Or.inl rfl
        | cons b before =>
          obtain ⟨rfl, rfl⟩ := List.cons.inj heq
          refine Or.inr ⟨fun hmem => ?_, before, after, rfl,
            fun y hy => hbefore y (List.mem_cons_of_mem _ hy)⟩
          rcases List.mem_cons.mp hmem with hkey | hmem
          · exact hbefore r List.mem_cons_self hkey.symm
          · exact hx hmem

/-- Where the list goes by origin, and an origin has one row for a key, a row is taken where no
earlier origin has its key. -/
theorem mem_takeUnseen_iff {l : List (WithOrigin D)}
    (hsorted : l.Pairwise fun x y => originOrder x.origin ≤ originOrder y.origin)
    (hinj : ∀ x ∈ l, ∀ y ∈ l, x.origin = y.origin → seenKey x.row = seenKey y.row → x = y)
    {x : WithOrigin D} : x ∈ takeUnseen [] l ↔ x ∈ l ∧
      ∀ y ∈ l, seenKey y.row = seenKey x.row → originOrder x.origin ≤ originOrder y.origin := by
  rw [mem_takeUnseen]
  constructor
  · rintro ⟨-, before, after, rfl, hbefore⟩
    refine ⟨by simp, fun y hy hkey => ?_⟩
    rcases List.mem_append.mp hy with hy | hy
    · exact absurd hkey (hbefore y hy)
    · rcases List.mem_cons.mp hy with rfl | hy
      · exact le_rfl
      · exact List.rel_of_pairwise_cons (List.pairwise_append.mp hsorted).2.1 hy
  · rintro ⟨hx, hmin⟩
    refine ⟨by simp, ?_⟩
    -- the first row with this key
    obtain ⟨before, z, after, hz, hbefore, heq⟩ :
        ∃ before z after, seenKey z.row = seenKey x.row ∧
          (∀ y ∈ before, seenKey y.row ≠ seenKey x.row) ∧ l = before ++ z :: after := by
      have hex : ∃ y ∈ l, decide (seenKey y.row = seenKey x.row) = true := ⟨x, hx, by simp⟩
      obtain ⟨z, hz⟩ := Option.isSome_iff_exists.mp (List.find?_isSome.mpr hex)
      obtain ⟨hp, before, after, heq, hbefore⟩ := List.find?_eq_some_iff_append.mp hz
      exact ⟨before, z, after, by simpa using hp, fun y hy => by simpa using hbefore y hy, heq⟩
    subst heq
    have hle : originOrder z.origin ≤ originOrder x.origin := by
      rcases List.mem_append.mp hx with hx | hx
      · exact absurd rfl (hbefore x hx)
      · rcases List.mem_cons.mp hx with rfl | hx
        · exact le_rfl
        · exact List.rel_of_pairwise_cons (List.pairwise_append.mp hsorted).2.1 hx
    have horigin : x.origin = z.origin :=
      originOrder_inj (le_antisymm (hmin z (by simp) hz) hle)
    obtain rfl := hinj x hx z (by simp) horigin hz.symm
    exact ⟨before, after, rfl, hbefore⟩

instance : Std.Total fun a b : WithOrigin D => compareRows a b ≤ 0 where
  total a b := by
    rw [compareRows_nonpos, compareRows_nonpos]
    exact le_total _ _

instance : IsTrans (WithOrigin D) fun a b => compareRows a b ≤ 0 where
  trans a b c hab hbc := by
    rw [compareRows_nonpos] at hab hbc ⊢
    exact hab.trans hbc

instance : Std.Total fun a b : SourcePage D => compareOrigins a.origin b.origin ≤ 0 where
  total a b := by
    rw [compareOrigins_nonpos, compareOrigins_nonpos]
    exact le_total _ _

instance : IsTrans (SourcePage D) fun a b => compareOrigins a.origin b.origin ≤ 0 where
  trans a b c hab hbc := by
    rw [compareOrigins_nonpos] at hab hbc ⊢
    exact hab.trans hbc

/-- Whatever is merged, the rows are in order. -/
theorem merge_sorted (pages : List (SourcePage D)) :
    (mergeSessionPages pages).rows.Pairwise fun a b => compareSessionKey a.row b.row ≤ 0 := by
  have hsorted := List.pairwise_insertionSort (fun a b : WithOrigin D => compareRows a b ≤ 0)
    (takeUnseen [] ((pages.insertionSort fun a b => compareOrigins a.origin b.origin ≤ 0).flatMap
      fun p => tagged p.origin p.rows))
  refine hsorted.imp fun {a b} hab => ?_
  rw [compareRows_nonpos, rowOrder, rowOrder, Prod.Lex.toLex_le_toLex] at hab
  rw [compareSessionKey_nonpos]
  rcases hab with hlt | ⟨heq, -⟩
  · exact hlt.le
  · exact heq.le

theorem merge_nodup (pages : List (SourcePage D)) :
    ((mergeSessionPages pages).rows.map fun x => (x.row.workspaceId, x.row.id)).Nodup := by
  have hkeys := (takeUnseen_nodup [] ((pages.insertionSort fun a b =>
    compareOrigins a.origin b.origin ≤ 0).flatMap fun p => tagged p.origin p.rows)).1
  have hperm := List.perm_insertionSort (fun a b : WithOrigin D => compareRows a b ≤ 0)
    (takeUnseen [] ((pages.insertionSort fun a b =>
      compareOrigins a.origin b.origin ≤ 0).flatMap fun p => tagged p.origin p.rows))
  refine (hperm.map _).nodup_iff.mpr ?_
  refine List.Nodup.of_map (fun k : JsString × JsString => k.1 ++ 0 :: k.2) ?_
  rw [List.map_map]
  exact hkeys

theorem mem_tagged {origin : Origin} {rows : List (Session D)} {x : WithOrigin D} :
    x ∈ tagged origin rows ↔ x.origin = origin ∧ x.row ∈ rows := by
  unfold tagged
  rw [List.mem_map]
  constructor
  · rintro ⟨r, hr, rfl⟩
    exact ⟨rfl, hr⟩
  · rintro ⟨rfl, hr⟩
    exact ⟨x.row, hr, rfl⟩

theorem append_zero_inj {a b c d : JsString} (ha : 0 ∉ a) (hb : 0 ∉ b)
    (h : a ++ 0 :: c = b ++ 0 :: d) : a = b ∧ c = d := by
  induction a generalizing b with
  | nil =>
    cases b with
    | nil => exact ⟨rfl, (List.cons.inj h).2⟩
    | cons y b => exact absurd ((List.cons.inj h).1 ▸ List.mem_cons_self) hb
  | cons x a ih =>
    cases b with
    | nil => exact absurd ((List.cons.inj h).1.symm ▸ List.mem_cons_self) ha
    | cons y b =>
      obtain ⟨rfl, htail⟩ := List.cons.inj h
      obtain ⟨rfl, rfl⟩ := ih (fun hm => ha (List.mem_cons_of_mem _ hm))
        (fun hm => hb (List.mem_cons_of_mem _ hm)) htail
      exact ⟨rfl, rfl⟩

/-- What makes the pages of a source add up: an id stands for one session, and a NUL can only end
the workspace id in a key. -/
structure Source.Keyed (src : Source D) : Prop where
  ids : (src.rows.map Session.id).Nodup
  noNul : ∀ r ∈ src.rows, 0 ∉ r.workspaceId

theorem Source.Keyed.eq_of_id {src : Source D} (h : src.Keyed) {a b : Session D}
    (ha : a ∈ src.rows) (hb : b ∈ src.rows) (hid : a.id = b.id) : a = b :=
  List.inj_on_of_nodup_map h.ids ha hb hid

theorem Source.Keyed.nodup {src : Source D} (h : src.Keyed) :
    (src.rows.map sessionOrder).Nodup := by
  refine h.ids.of_map.map_on fun a ha b hb hab => ?_
  exact h.eq_of_id ha hb (sessionOrder_inj hab)

/-- What has been loaded of a source. -/
def Loaded (src : Source D) (rows : List (Session D)) : Option SessionCursor → Prop
  | none => rows.Perm src.rows
  | some c => rows.Perm (Keyset.upto sessionOrder src.rows (some c.order))

/-- A page after what is loaded. -/
theorem sessionsPage_loaded {src : Source D} (h : src.Keyed) {after : Option SessionCursor}
    {limit : ℕ} (hlimit : 1 ≤ limit) {rows : List (Session D)}
    (hrows : rows.Perm (Keyset.upto sessionOrder src.rows (after.map SessionCursor.order))) :
    Loaded src (rows ++ (sessionsPage src after limit).rows)
      (sessionsPage src after limit).next := by
  unfold sessionsPage
  dsimp only
  set last := after.map SessionCursor.order
  split_ifs with hmore
  · have htake : (Keyset.fetch sessionOrder src.rows last (limit + 1)).take limit =
        Keyset.fetch sessionOrder src.rows last limit := by
      unfold Keyset.fetch
      rw [List.take_take, Nat.min_eq_left (Nat.le_succ limit)]
    have hne : Keyset.fetch sessionOrder src.rows last limit ≠ [] := by
      intro hnil
      rw [← htake] at hnil
      have hlen := congrArg List.length hnil
      rw [List.length_take, List.length_nil] at hlen
      omega
    rw [htake]
    have hr := List.getLast?_eq_some_getLast hne
    rw [hr]
    have hperm := Keyset.fetch_perm hr (Or.inl h.nodup)
    have hbeyond := (Keyset.fetch_last hr).1
    exact (hrows.append hperm).trans (Keyset.upto_append_between hbeyond)
  · have hall : (Keyset.fetch sessionOrder src.rows last (limit + 1)).take limit =
        Keyset.fetch sessionOrder src.rows last (limit + 1) :=
      List.take_of_length_le (not_lt.mp hmore)
    rw [hall]
    obtain ⟨rest, hperm, -, hfull⟩ :=
      Keyset.fetch_append sessionOrder src.rows last (limit + 1)
    have hrest : rest = [] := by
      by_contra hne
      have := hfull hne
      omega
    rw [hrest, List.append_nil] at hperm
    have hsplit := List.filter_append_perm
      (fun r => decide (Keyset.Beyond sessionOrder last r)) src.rows
    refine (hrows.append hperm.symm).trans (List.perm_append_comm.trans ?_)
    convert hsplit using 2
    unfold Keyset.upto
    refine List.filter_congr fun r _ => ?_
    simp

/-- A merged list that was built from one page for each of some sources. -/
structure Built (srcs : List (Source D)) (m : MergedSessions D) : Prop where
  merged : m = mergeSessionPages m.pages
  origins : (m.pages.map SourcePage.origin).Nodup
  known : ∀ p ∈ m.pages, p.origin ∈ srcs.map Source.origin

/-- The cursor of a page in `more`. -/
theorem mem_more {pages : List (SourcePage D)} {x : Origin × SessionCursor} :
    x ∈ (mergeSessionPages pages).more ↔ ∃ p ∈ pages, p.origin = x.1 ∧ p.next = some x.2 := by
  unfold mergeSessionPages
  dsimp only
  rw [List.mem_filterMap]
  constructor
  · rintro ⟨p, hp, hx⟩
    obtain ⟨c, hc, rfl⟩ := Option.map_eq_some_iff.mp hx
    exact ⟨p, (List.mem_insertionSort _).mp hp, rfl, hc⟩
  · rintro ⟨p, hp, horigin, hnext⟩
    refine ⟨p, (List.mem_insertionSort _).mpr hp, ?_⟩
    rw [hnext, horigin]
    rfl

/-- The pages of the other sources, and one of this source. -/
theorem nodup_replaced {pages : List (SourcePage D)} (h : (pages.map SourcePage.origin).Nodup)
    (page : SourcePage D) :
    (((pages.filter fun p => p.origin ≠ page.origin) ++ [page]).map SourcePage.origin).Nodup := by
  rw [List.map_append, List.map_singleton]
  refine List.nodup_append.mpr ⟨h.sublist (List.filter_sublist.map _), by simp, ?_⟩
  intro a ha b hb hab
  obtain ⟨p, hp, rfl⟩ := List.mem_map.mp ha
  obtain rfl := List.mem_singleton.mp hb
  simpa [hab] using (List.mem_filter.mp hp).2

theorem find_source {srcs : List (Source D)} {origin : Origin} {src : Source D}
    (h : (srcs.find? fun src => src.origin = origin) = some src) :
    src ∈ srcs ∧ src.origin = origin := by
  have hp := List.find?_some h
  exact ⟨List.mem_of_find?_eq_some h, by simpa using hp⟩

theorem firstPages_nodup (srcs : List (Source D)) {first : List (Origin × ℕ)}
    (h : (first.map Prod.fst).Nodup) :
    ((firstPages srcs first).map SourcePage.origin).Nodup := by
  have hsub : ((firstPages srcs first).map SourcePage.origin).Sublist (first.map Prod.fst) := by
    unfold firstPages
    induction first with
    | nil => exact List.Sublist.slnil
    | cons x first ih =>
      have ih := ih (List.nodup_cons.mp h).2
      rw [List.filterMap_cons]
      cases hfind : srcs.find? fun src => src.origin = x.1 with
      | none => exact ih.cons _
      | some src =>
        have horigin : (sessionsPage src none x.2).origin = x.1 := (find_source hfind).2
        simp only [Option.map_some, List.map_cons, horigin]
        exact ih.cons_cons _
  exact h.sublist hsub

/-- What a step makes of the pages. -/
inductive Paged (srcs : List (Source D)) (s : Option (MergedSessions D)) :
    Action → List (SourcePage D) → Prop
  | merge {first : List (Origin × ℕ)} (hfirst : (first.map Prod.fst).Nodup)
    (hlimit : ∀ x ∈ first, 1 ≤ x.2) : Paged srcs s (.merge first) (firstPages srcs first)
  | append {origin : Origin} {limit : ℕ} {m : MergedSessions D} {src : Source D}
    {c : SessionCursor} (hm : s = some m)
    (hfind : (srcs.find? fun src => src.origin = origin) = some src) (hmore : (origin, c) ∈ m.more) (hlimit : 1 ≤ limit) :
    Paged srcs s (.append origin limit)
      ((m.pages.filter fun p => p.origin ≠ origin) ++
        [⟨origin, ((m.pages.find? fun p => p.origin = origin).map SourcePage.rows).getD [] ++
          (sessionsPage src (some c) limit).rows, (sessionsPage src (some c) limit).next⟩])
  | replace {origin : Origin} {limit : ℕ} {m : MergedSessions D} {src : Source D}
    (hm : s = some m) (hfind : (srcs.find? fun src => src.origin = origin) = some src)
    (hlimit : 1 ≤ limit) :
    Paged srcs s (.replace origin limit)
      ((m.pages.filter fun p => p.origin ≠ origin) ++ [sessionsPage src none limit])

theorem step_paged {srcs : List (Source D)} {s s' : Option (MergedSessions D)} {a : Action}
    (h : step srcs s a = some s') : ∃ pages, s' = some (mergeSessionPages pages) ∧
      Paged srcs s a pages := by
  cases a with
  | merge first =>
    simp only [step] at h
    split_ifs at h with hok
    obtain rfl := Option.some.inj h
    exact ⟨_, rfl, .merge hok.1 hok.2⟩
  | append origin limit =>
    simp only [step] at h
    split at h
    · next m src hfind =>
      split at h
      · next x hx =>
        split_ifs at h with hlimit
        obtain rfl := Option.some.inj h
        have hx1 : x.1 = origin := by simpa using List.find?_some hx
        have hmore : (origin, x.2) ∈ m.more := hx1 ▸ List.mem_of_find?_eq_some hx
        refine ⟨_, ?_, .append rfl hfind hmore hlimit⟩
        unfold appendSessionPage
        have hpage : (sessionsPage src (some x.2) limit).origin = origin := (find_source hfind).2
        simp only [hpage]
      · cases h
    · cases h
  | replace origin limit =>
    simp only [step] at h
    split at h
    · next m src hfind =>
      split_ifs at h with hlimit
      obtain rfl := Option.some.inj h
      refine ⟨_, ?_, .replace rfl hfind hlimit⟩
      unfold replaceSessionPage
      have hpage : (sessionsPage src none limit).origin = origin := (find_source hfind).2
      simp only [hpage]
    · cases h

theorem Paged.built {srcs : List (Source D)} {s : Option (MergedSessions D)} {a : Action}
    {pages : List (SourcePage D)} (h : Paged srcs s a pages)
    (hs : ∀ m, s = some m → Built srcs m) : Built srcs (mergeSessionPages pages) := by
  have hknown : ∀ {origin : Origin} {src : Source D},
      (srcs.find? fun src => src.origin = origin) = some src →
        origin ∈ srcs.map Source.origin := by
    intro origin src hfind
    obtain ⟨hsrc, rfl⟩ := find_source hfind
    exact List.mem_map_of_mem hsrc
  cases h with
  | merge hfirst hlimit =>
    refine ⟨rfl, firstPages_nodup srcs hfirst, fun p hp => ?_⟩
    obtain ⟨x, -, hpage⟩ := List.mem_filterMap.mp hp
    obtain ⟨src, hfind, rfl⟩ := Option.map_eq_some_iff.mp hpage
    exact List.mem_map_of_mem (find_source hfind).1
  | append hm hfind hmore hlimit =>
    refine ⟨rfl, nodup_replaced (hs _ hm).origins ⟨_, _, _⟩, fun p hp => ?_⟩
    rcases List.mem_append.mp hp with hp | hp
    · exact (hs _ hm).known p (List.mem_filter.mp hp).1
    · obtain rfl := List.mem_singleton.mp hp
      exact hknown hfind
  | replace hm hfind hlimit =>
    obtain rfl := (find_source hfind).2
    refine ⟨rfl, nodup_replaced (hs _ hm).origins (sessionsPage _ none _), fun p hp => ?_⟩
    rcases List.mem_append.mp hp with hp | hp
    · exact (hs _ hm).known p (List.mem_filter.mp hp).1
    · obtain rfl := List.mem_singleton.mp hp
      exact hknown hfind

theorem reachable_built {srcs : List (Source D)} {s : Option (MergedSessions D)}
    {as : List Action} (hr : run (step srcs) none as = some s) :
    ∀ m, s = some m → Built srcs m := by
  have hstart : ∀ m : MergedSessions D, none ≠ some m := nofun
  refine run_invariant (I := fun s : Option (MergedSessions D) => ∀ m, s = some m → Built srcs m)
    ?_ (fun m hm => absurd hm (hstart m)) hr
  rintro s a t hs hstep m rfl
  obtain ⟨pages, heq, hpaged⟩ := step_paged hstep
  obtain rfl := Option.some.inj heq
  exact hpaged.built hs

/-- The page that an entry of `more` stands for. -/
theorem Built.page {srcs : List (Source D)} {m : MergedSessions D} (h : Built srcs m) {origin : Origin} {c : SessionCursor}
    (hmore : (origin, c) ∈ m.more) : ∃ p ∈ m.pages, p.origin = origin ∧ p.next = some c ∧
      (m.pages.find? fun p => p.origin = origin) = some p := by
  rw [h.merged] at hmore
  obtain ⟨p, hp, horigin, hnext⟩ := mem_more.mp hmore
  refine ⟨p, hp, horigin, hnext, ?_⟩
  have hex : ∃ q ∈ m.pages, decide (q.origin = origin) = true := ⟨p, hp, by simpa using horigin⟩
  obtain ⟨q, hq⟩ := Option.isSome_iff_exists.mp (List.find?_isSome.mpr hex)
  have hqo : q.origin = origin := by simpa using List.find?_some hq
  rw [hq, List.inj_on_of_nodup_map h.origins (List.mem_of_find?_eq_some hq) hp
    (hqo.trans horigin.symm)]

/-- The requests that a page can still lead to. -/
def pending (srcs : List (Source D)) (p : SourcePage D) : ℕ :=
  match p.next with
  | none => 0
  | some c =>
    let rows := ((srcs.find? fun src => src.origin = p.origin).map Source.rows).getD []
    1 + (rows.filter fun r => Keyset.Beyond sessionOrder (some c.order) r).length

def remaining (srcs : List (Source D)) (m : MergedSessions D) : ℕ :=
  (m.pages.map (pending srcs)).sum

theorem split_page {pages : List (SourcePage D)} (h : (pages.map SourcePage.origin).Nodup)
    {p : SourcePage D} (hp : p ∈ pages) :
    ((pages.filter fun q => q.origin ≠ p.origin) ++ [p]).Perm pages := by
  induction pages with
  | nil => cases hp
  | cons q pages ih =>
    obtain ⟨hq, hrest⟩ := List.nodup_cons.mp h
    by_cases hqp : q = p
    · subst hqp
      have hkeep : (pages.filter fun r => r.origin ≠ q.origin) = pages := by
        refine List.filter_eq_self.mpr fun r hr => ?_
        have hne : r.origin ≠ q.origin := fun heq => hq (heq ▸ List.mem_map_of_mem hr)
        simpa using hne
      rw [List.filter_cons_of_neg (by simp), hkeep]
      exact List.perm_append_comm
    · have hmem : p ∈ pages := (List.mem_cons.mp hp).resolve_left fun heq => hqp heq.symm
      have hne : q.origin ≠ p.origin := fun heq => hq (heq ▸ List.mem_map_of_mem hmem)
      rw [List.filter_cons_of_pos (by simpa using hne), List.cons_append]
      exact (ih hrest hmem).cons q

/-- Each append leaves fewer requests to be made. -/
theorem remaining_append {srcs : List (Source D)} {m m' : MergedSessions D} {origin : Origin}
    {limit : ℕ} (h : Built srcs m) (hstep : step srcs (some m) (.append origin limit) = some (some m')) :
    remaining srcs m' < remaining srcs m := by
  obtain ⟨pages, heq, hpaged⟩ := step_paged hstep
  obtain rfl := Option.some.inj heq
  cases hpaged with
  | @append _ _ m₁ src c hm hfind hmore hlimit =>
    obtain rfl := Option.some.inj hm
    obtain ⟨p, hp, horigin, hnext, -⟩ := h.page hmore
    subst horigin
    have hsum := ((split_page h.origins hp).map (pending srcs)).sum_eq
    have hnew : ∀ rows, pending srcs ⟨p.origin, rows, (sessionsPage src (some c) limit).next⟩ <
        pending srcs p := by
      intro rows
      unfold pending
      rw [hnext, hfind]
      dsimp only
      split
      · omega
      · next c' hc' =>
        unfold sessionsPage at hc'
        dsimp only at hc'
        split_ifs at hc'
        obtain ⟨r, hr, rfl⟩ := Option.map_eq_some_iff.mp hc'
        have hmem := List.mem_of_mem_take (List.mem_of_getLast? hr)
        have hfetch := List.mem_of_mem_take hmem
        rw [List.mem_insertionSort, List.mem_filter] at hfetch
        have hlt := Keyset.beyond_length_lt hfetch.1 (of_decide_eq_true hfetch.2)
        exact Nat.add_lt_add_left hlt 1
    unfold remaining
    rw [← hsum]
    simp only [mergeSessionPages, List.map_append, List.sum_append, List.map_singleton,
      List.sum_singleton]
    exact Nat.add_lt_add_left (hnew _) _

/-- What every page holds of its source. -/
def AllLoaded (srcs : List (Source D)) (pages : List (SourcePage D)) : Prop :=
  ∀ p ∈ pages, ∃ src ∈ srcs, src.origin = p.origin ∧ Loaded src p.rows p.next

theorem first_loaded {src : Source D} (h : src.Keyed) {limit : ℕ} (hlimit : 1 ≤ limit) :
    Loaded src (sessionsPage src none limit).rows (sessionsPage src none limit).next := by
  have hnone : ([] : List (Session D)).Perm
      (Keyset.upto sessionOrder src.rows ((none : Option SessionCursor).map SessionCursor.order)) := by
    rw [Option.map_none, Keyset.upto_none]
  exact sessionsPage_loaded h hlimit hnone

theorem AllLoaded.paged {srcs : List (Source D)} {s : Option (MergedSessions D)} {a : Action}
    {pages : List (SourcePage D)} (horigins : (srcs.map Source.origin).Nodup)
    (hkeyed : ∀ src ∈ srcs, src.Keyed) (hbuilt : ∀ m, s = some m → Built srcs m)
    (hs : ∀ m, s = some m → AllLoaded srcs m.pages) (h : Paged srcs s a pages) :
    AllLoaded srcs pages := by
  cases h with
  | merge hfirst hlimit =>
    intro p hp
    obtain ⟨x, hx, hpage⟩ := List.mem_filterMap.mp hp
    obtain ⟨src, hfind, rfl⟩ := Option.map_eq_some_iff.mp hpage
    have hsrc := (find_source hfind).1
    exact ⟨src, hsrc, rfl, first_loaded (hkeyed src hsrc) (hlimit x hx)⟩
  | @append origin limit m src c hm hfind hmore hlimit =>
    obtain ⟨hsrc, rfl⟩ := find_source hfind
    intro p hp
    rcases List.mem_append.mp hp with hp | hp
    · exact hs m hm p (List.mem_filter.mp hp).1
    · obtain rfl := List.mem_singleton.mp hp
      obtain ⟨q, hq, hqo, hqn, hqfind⟩ := (hbuilt m hm).page hmore
      obtain ⟨src', hsrc', ho', hloaded⟩ := hs m hm q hq
      obtain rfl := List.inj_on_of_nodup_map horigins hsrc' hsrc (ho'.trans hqo)
      rw [hqn] at hloaded
      refine ⟨src', hsrc, rfl, ?_⟩
      rw [hqfind, Option.map_some, Option.getD_some]
      exact sessionsPage_loaded (hkeyed src' hsrc) hlimit hloaded
  | @replace origin limit m src hm hfind hlimit =>
    have hsrc := (find_source hfind).1
    intro p hp
    rcases List.mem_append.mp hp with hp | hp
    · exact hs m hm p (List.mem_filter.mp hp).1
    · obtain rfl := List.mem_singleton.mp hp
      exact ⟨src, hsrc, rfl, first_loaded (hkeyed src hsrc) hlimit⟩

theorem reachable_loaded {srcs : List (Source D)} {s : Option (MergedSessions D)}
    {as : List Action} (horigins : (srcs.map Source.origin).Nodup)
    (hkeyed : ∀ src ∈ srcs, src.Keyed) (hr : run (step srcs) none as = some s) :
    ∀ m, s = some m → AllLoaded srcs m.pages := by
  have hstart : ∀ m : MergedSessions D, none ≠ some m := nofun
  refine run_invariant_history
    (I := fun _ (s : Option (MergedSessions D)) => ∀ m, s = some m → AllLoaded srcs m.pages)
    (fun m hm => absurd hm (hstart m)) ?_ hr
  rintro as s a t hrun hs hstep m rfl
  obtain ⟨pages, heq, hpaged⟩ := step_paged hstep
  obtain rfl := Option.some.inj heq
  exact AllLoaded.paged horigins hkeyed (reachable_built hrun) hs hpaged

/-- All the rows of all the sources. -/
def allRows (srcs : List (Source D)) : List (WithOrigin D) :=
  srcs.flatMap fun src => tagged src.origin src.rows

theorem mem_allRows {srcs : List (Source D)} {x : WithOrigin D} :
    x ∈ allRows srcs ↔ ∃ src ∈ srcs, x.origin = src.origin ∧ x.row ∈ src.rows := by
  unfold allRows
  rw [List.mem_flatMap]
  simp only [mem_tagged]

section
variable {srcs : List (Source D)}

theorem allRows_eq_of_id (horigins : (srcs.map Source.origin).Nodup)
    (hkeyed : ∀ src ∈ srcs, src.Keyed) {x y : WithOrigin D} (hx : x ∈ allRows srcs)
    (hy : y ∈ allRows srcs) (ho : x.origin = y.origin) (hid : x.row.id = y.row.id) : x = y := by
  obtain ⟨src, hsrc, hxo, hxr⟩ := mem_allRows.mp hx
  obtain ⟨src', hsrc', hyo, hyr⟩ := mem_allRows.mp hy
  obtain rfl := List.inj_on_of_nodup_map horigins hsrc hsrc' (hxo.symm.trans (ho.trans hyo))
  have hrow := (hkeyed src hsrc).eq_of_id hxr hyr hid
  cases x
  cases y
  simp_all

theorem allRows_nodup (horigins : (srcs.map Source.origin).Nodup)
    (hkeyed : ∀ src ∈ srcs, src.Keyed) : (allRows srcs).Nodup := by
  unfold allRows
  refine List.nodup_flatMap.mpr ⟨fun src hsrc => ?_, ?_⟩
  · unfold tagged
    refine (hkeyed src hsrc).ids.of_map.map fun a b hab => ?_
    exact congrArg WithOrigin.row hab
  · refine (List.pairwise_map.mp horigins).imp fun {a b} hab => ?_
    intro x hxa hxb
    exact hab ((mem_tagged.mp hxa).1.symm.trans (mem_tagged.mp hxb).1)

theorem allRows_key (hkeyed : ∀ src ∈ srcs, src.Keyed) {x y : WithOrigin D}
    (hx : x ∈ allRows srcs) (hy : y ∈ allRows srcs) :
    seenKey y.row = seenKey x.row ↔
      y.row.workspaceId = x.row.workspaceId ∧ y.row.id = x.row.id := by
  obtain ⟨src, hsrc, -, hxr⟩ := mem_allRows.mp hx
  obtain ⟨src', hsrc', -, hyr⟩ := mem_allRows.mp hy
  constructor
  · exact append_zero_inj ((hkeyed src' hsrc').noNul _ hyr) ((hkeyed src hsrc).noNul _ hxr)
  · rintro ⟨hws, hid⟩
    rw [seenKey, seenKey, hws, hid]

/-- The pages that are complete hold the rows of their sources. -/
theorem mem_pages_iff {pages : List (SourcePage D)} (horigins : (srcs.map Source.origin).Nodup)
    (hloaded : AllLoaded srcs pages) (hdone : ∀ p ∈ pages, p.next = none)
    (hall : ∀ src ∈ srcs, ∃ p ∈ pages, p.origin = src.origin) {x : WithOrigin D} :
    x ∈ (pages.insertionSort fun a b => compareOrigins a.origin b.origin ≤ 0).flatMap
      (fun p => tagged p.origin p.rows) ↔ x ∈ allRows srcs := by
  rw [List.mem_flatMap, mem_allRows]
  have hperm : ∀ p ∈ pages, ∀ src ∈ srcs, src.origin = p.origin → p.rows.Perm src.rows := by
    intro p hp src hsrc ho
    obtain ⟨src', hsrc', ho', hrows⟩ := hloaded p hp
    obtain rfl := List.inj_on_of_nodup_map horigins hsrc' hsrc (ho'.trans ho.symm)
    rwa [hdone p hp] at hrows
  constructor
  · rintro ⟨p, hp, hx⟩
    rw [List.mem_insertionSort] at hp
    obtain ⟨hxo, hxr⟩ := mem_tagged.mp hx
    obtain ⟨src, hsrc, ho, -⟩ := hloaded p hp
    exact ⟨src, hsrc, hxo.trans ho.symm, (hperm p hp src hsrc ho).mem_iff.mp hxr⟩
  · rintro ⟨src, hsrc, hxo, hxr⟩
    obtain ⟨p, hp, ho⟩ := hall src hsrc
    refine ⟨p, (List.mem_insertionSort _).mpr hp, mem_tagged.mpr ⟨hxo.trans ho.symm, ?_⟩⟩
    exact (hperm p hp src hsrc ho.symm).mem_iff.mpr hxr

theorem merge_complete {pages : List (SourcePage D)} (horigins : (srcs.map Source.origin).Nodup)
    (hkeyed : ∀ src ∈ srcs, src.Keyed) (hloaded : AllLoaded srcs pages)
    (hdone : ∀ p ∈ pages, p.next = none) (hall : ∀ src ∈ srcs, ∃ p ∈ pages, p.origin = src.origin) :
    (mergeSessionPages pages).rows = sortedUnion srcs := by
  have hmem := fun x => mem_pages_iff (x := x) horigins hloaded hdone hall
  unfold mergeSessionPages sortedUnion
  dsimp only
  set ordered := (pages.insertionSort fun a b => compareOrigins a.origin b.origin ≤ 0)
  set l := ordered.flatMap fun p => tagged p.origin p.rows
  have hsorted : l.Pairwise fun x y => originOrder x.origin ≤ originOrder y.origin := by
    refine List.pairwise_flatMap.mpr ⟨fun p _ => ?_, ?_⟩
    · exact List.pairwise_map.mpr (List.pairwise_of_forall fun _ _ => le_rfl)
    · refine (List.pairwise_insertionSort _ pages).imp fun {a b} hab x hx y hy => ?_
      rw [(mem_tagged.mp hx).1, (mem_tagged.mp hy).1]
      exact (compareOrigins_nonpos _ _).mp hab
  have hinj : ∀ x ∈ l, ∀ y ∈ l, x.origin = y.origin → seenKey x.row = seenKey y.row → x = y := by
    intro x hx y hy ho hkey
    have hx' := (hmem x).mp hx
    have hy' := (hmem y).mp hy
    exact allRows_eq_of_id horigins hkeyed hx' hy' ho ((allRows_key hkeyed hy' hx').mp hkey).2
  have hfirst : (takeUnseen [] l).Nodup := (takeUnseen_nodup [] l).1.of_map
  have hperm : (takeUnseen [] l).Perm ((allRows srcs).filter fun x => (allRows srcs).all fun y =>
      decide (y.row.workspaceId = x.row.workspaceId → y.row.id = x.row.id →
        compareOrigins x.origin y.origin ≤ 0)) := by
    refine (List.perm_ext_iff_of_nodup hfirst ((allRows_nodup horigins hkeyed).filter _)).mpr ?_
    intro x
    rw [mem_takeUnseen_iff hsorted hinj, List.mem_filter, List.all_eq_true, hmem]
    refine and_congr_right fun hx => ?_
    constructor
    · intro h y hy
      rw [decide_eq_true_eq, compareOrigins_nonpos]
      exact fun hws hid => h y ((hmem y).mpr hy) ((allRows_key hkeyed hx hy).mpr ⟨hws, hid⟩)
    · intro h y hy hkey
      have hy' := (hmem y).mp hy
      obtain ⟨hws, hid⟩ := (allRows_key hkeyed hx hy').mp hkey
      have hle := of_decide_eq_true (h y hy') hws hid
      exact (compareOrigins_nonpos _ _).mp hle
  refine List.Perm.eq_of_pairwise ?_ (List.pairwise_insertionSort _ _)
    (List.pairwise_insertionSort _ _) ?_
  · intro a b ha hb hab hba
    rw [compareRows_nonpos] at hab hba
    have heq := le_antisymm hab hba
    have hpair := Prod.ext_iff.mp (toLex.injective heq)
    rw [List.mem_insertionSort] at ha hb
    have ha' := (hmem a).mp ((mem_takeUnseen_iff hsorted hinj).mp ha).1
    exact allRows_eq_of_id horigins hkeyed ha' (List.mem_filter.mp hb).1
      (originOrder_inj hpair.2) (sessionOrder_inj hpair.1)
  · exact (List.perm_insertionSort _ _).trans (hperm.trans (List.perm_insertionSort _ _).symm)

end

/-- Any number of loads of older rows, one after the other. -/
theorem appends_bounded (srcs : List (Source D)) {m : MergedSessions D} (h : Built srcs m)
    {requests : List (Origin × ℕ)} {s : Option (MergedSessions D)}
    (hr : run (step srcs) (some m) (requests.map fun x => .append x.1 x.2) = some s) :
    requests.length ≤ remaining srcs m := by
  induction requests generalizing m with
  | nil => exact Nat.zero_le _
  | cons x requests ih =>
    obtain ⟨t, hstep, hrest⟩ := run_cons hr
    obtain ⟨pages, rfl, hpaged⟩ := step_paged hstep
    have hlt := remaining_append h hstep
    have hnext := ih (hpaged.built fun m' hm' => Option.some.inj hm' ▸ h) hrest
    rw [List.length_cons]
    omega

/-- While a source has more, its next page can be asked for. -/
theorem append_enabled {srcs : List (Source D)} {m : MergedSessions D} (h : Built srcs m)
    {x : Origin × SessionCursor} (hx : x ∈ m.more) {limit : ℕ} (hlimit : 1 ≤ limit) :
    (step srcs (some m) (.append x.1 limit)).isSome := by
  have hentry : (x.1, x.2) ∈ m.more := hx
  obtain ⟨p, hp, horigin, -⟩ := h.page hentry
  obtain ⟨src, hsrc, ho⟩ := List.mem_map.mp (h.known p hp)
  have hexsrc : ∃ src ∈ srcs, decide (src.origin = x.1) = true :=
    ⟨src, hsrc, by simpa using ho.trans horigin⟩
  have hexmore : ∃ y ∈ m.more, decide (y.1 = x.1) = true := ⟨x, hx, by simp⟩
  obtain ⟨src', hfind⟩ := Option.isSome_iff_exists.mp (List.find?_isSome.mpr hexsrc)
  obtain ⟨y, hy⟩ := Option.isSome_iff_exists.mp (List.find?_isSome.mpr hexmore)
  simp only [step, hfind, hy, if_pos hlimit, Option.isSome_some]

/-- In every run the merged rows are in order and without duplicates, and loading older rows ends.
When nothing more is to be loaded, and an id names one session of a source, the rows are the union of
the sources. -/
theorem pagination_complete {srcs : List (Source D)} (horigins : (srcs.map Source.origin).Nodup)
    {as : List Action} {m : MergedSessions D} (hr : run (step srcs) none as = some (some m)) :
    (m.rows.Pairwise fun a b => compareSessionKey a.row b.row ≤ 0) ∧
    (m.rows.map fun x => (x.row.workspaceId, x.row.id)).Nodup ∧
    (∀ requests : List (Origin × ℕ), ∀ s,
      run (step srcs) (some m) (requests.map fun x => .append x.1 x.2) = some s →
        requests.length ≤ remaining srcs m) ∧
    (∀ x ∈ m.more, ∀ limit, 1 ≤ limit → (step srcs (some m) (.append x.1 limit)).isSome) ∧
    ((∀ src ∈ srcs, src.Keyed) → m.more = [] →
      (∀ src ∈ srcs, ∃ p ∈ m.pages, p.origin = src.origin) → m.rows = sortedUnion srcs) := by
  have hbuilt := reachable_built hr m rfl
  refine ⟨?_, ?_, ?_, ?_, ?_⟩
  · rw [hbuilt.merged]
    exact merge_sorted m.pages
  · rw [hbuilt.merged]
    exact merge_nodup m.pages
  · intro requests s hrun
    exact appends_bounded srcs hbuilt hrun
  · intro x hx limit hlimit
    exact append_enabled hbuilt hx hlimit
  · intro hkeyed hmore hall
    have hdone : ∀ p ∈ m.pages, p.next = none := by
      intro p hp
      by_contra hne
      obtain ⟨c, hc⟩ := Option.ne_none_iff_exists'.mp hne
      have hin : (p.origin, c) ∈ (mergeSessionPages m.pages).more :=
        mem_more.mpr ⟨p, hp, rfl, hc⟩
      rw [← hbuilt.merged, hmore] at hin
      cases hin
    rw [hbuilt.merged]
    exact merge_complete horigins hkeyed (reachable_loaded horigins hkeyed hr m rfl) hdone hall

def exSources : List (Source Unit) :=
  [⟨js "h", [⟨js "w", js "b", some 2, ()⟩, ⟨js "w", js "a", none, ()⟩]⟩,
    ⟨localOrigin, [⟨js "w", js "a", some 1, ()⟩]⟩]

def exLoads : List Action := [.merge [(js "h", 1), (localOrigin, 1)], .append (js "h") 1]

/-- What these loads end in. -/
def exMerged : MergedSessions Unit :=
  mergeSessionPages [⟨localOrigin, [⟨js "w", js "a", some 1, ()⟩], none⟩,
    ⟨js "h", [⟨js "w", js "b", some 2, ()⟩, ⟨js "w", js "a", none, ()⟩], none⟩]

theorem pagination_complete_twoSources :
    run (step exSources) none exLoads = some (some exMerged) ∧
    exMerged.rows = sortedUnion exSources ∧ exMerged.rows.length = 2 := by
  have hr : run (step exSources) none exLoads = some (some exMerged) := by
    decide +kernel
  have horigins : (exSources.map Source.origin).Nodup := by decide +kernel
  refine ⟨hr, (pagination_complete horigins hr).2.2.2.2 ?_ ?_ ?_, by decide +kernel⟩
  · intro src hsrc
    fin_cases hsrc
    · exact ⟨by decide +kernel, by decide +kernel⟩
    · exact ⟨by decide +kernel, by decide +kernel⟩
  · decide +kernel
  · decide +kernel

def exTied : List (Source Unit) :=
  [⟨localOrigin, [⟨js "A", js "x", some 1, ()⟩, ⟨js "B", js "x", some 1, ()⟩]⟩]

def exNul : List (Source Unit) :=
  [⟨localOrigin, [⟨[97], [98, 0, 99], some 1, ()⟩, ⟨[97, 0, 98], js "c", some 1, ()⟩]⟩]

/-- A cursor between two sessions of one time and one id, in two workspaces, passes over the second.
A NUL in a workspace id makes one key of two sessions. -/
theorem pagination_incomplete :
    ((∀ src ∈ exTied, (src.rows.map fun r => (r.workspaceId, r.id)).Nodup) ∧
      ∃ m, run (step exTied) none [.merge [(localOrigin, 1)], .append localOrigin 1] =
          some (some m) ∧
        m.more = [] ∧ m.rows ≠ sortedUnion exTied) ∧
    ((∀ src ∈ exNul, (src.rows.map fun r => (r.workspaceId, r.id)).Nodup) ∧
      ∃ m, run (step exNul) none [.merge [(localOrigin, 2)]] = some (some m) ∧
        m.more = [] ∧ m.rows ≠ sortedUnion exNul) := by
  refine ⟨⟨by decide +kernel, ?_⟩, ⟨by decide +kernel, ?_⟩⟩
  · refine ⟨mergeSessionPages [⟨localOrigin, [⟨js "A", js "x", some 1, ()⟩], none⟩], ?_⟩
    decide +kernel
  · refine ⟨mergeSessionPages [⟨localOrigin, exNul.flatMap Source.rows, none⟩], ?_⟩
    decide +kernel

end ClaudeFleet.Federation
