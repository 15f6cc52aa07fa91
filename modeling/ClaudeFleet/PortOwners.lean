import ClaudeFleet.JsMap
import ClaudeFleet.StackSearch

/-! Two walks up the process ancestry of a port's owner: one names the session the port is shown
under, the other the process whose whole subtree is signalled when the port is killed. -/
namespace ClaudeFleet.PortOwners
open StackSearch

def maxAncestryHops : ℕ := 32

variable (roots : JsMap ℤ String) (ppid : JsMap ℤ ℤ)

def sessionFor.loop : ℕ → ℤ → String
  | 0, _ => ""
  | hops + 1, pid =>
    if 1 < pid then
      match roots.get? pid with
      | some id => id
      | none =>
        match ppid.get? pid with
        | some next => loop hops next
        | none => ""
    else ""

/-- The session whose tree holds the process, empty when none is found. -/
def sessionFor (pid : ℤ) : String := sessionFor.loop roots ppid maxAncestryHops pid

def subtreeRoot.loop : ℕ → ℤ → Option ℤ
  | 0, _ => none
  | hops + 1, cur =>
    match ppid.get? cur with
    | none => none
    | some parent =>
      if (roots.get? parent).isSome then some cur
      else if parent ≤ 1 then none
      else loop hops parent

/-- The command launched under a session that the owner belongs to, else the owner. -/
def subtreeRoot (owner : ℤ) : ℤ :=
  (subtreeRoot.loop roots ppid maxAncestryHops owner).getD owner

/-- The children listed under each parent, in the order of the directory. -/
def children : List (ℤ × ℤ) := ppid.rows.map fun e => (e.2, e.1)

/-- The process and everything that descends from it, unless it has no entry and no children. -/
def descendants (steps : ℕ) (root : ℤ) : Option (List ℤ) :=
  if ppid.get? root = none ∧ targets (children ppid) root = [] then some []
  else search (children ppid) steps [root] []

/-- The first session root above the process is its ancestor of that number. -/
def firstRootAt : ℕ → ℤ → Bool
  | 0, _ => false
  | 1, pid => (ppid.get? pid).any fun parent => (roots.get? parent).isSome
  | n + 2, pid => (ppid.get? pid).any fun parent =>
      1 < parent && (roots.get? parent).isNone && firstRootAt (n + 1) parent

/-- Session roots are processes other than the first, and sessions have names. -/
def Proper : Prop := ∀ pid id, roots.get? pid = some id → 1 < pid ∧ id ≠ ""

/-- The process has an entry of its own, or one of a child. -/
def Listed (pid : ℤ) : Prop := ∃ e ∈ ppid.rows, e.1 = pid ∨ e.2 = pid

variable {roots ppid} {hops steps : ℕ} {pid cur root owner : ℤ} {found : List ℤ}

theorem mem_targets_children {child : ℤ} :
    child ∈ targets (children ppid) pid ↔ ppid.get? child = some pid := by
  simp [mem_targets, children, JsMap.get?_eq_some]

theorem listed_iff :
    Listed ppid pid ↔ ¬(ppid.get? pid = none ∧ targets (children ppid) pid = []) := by
  constructor
  · rintro ⟨⟨child, parent⟩, he, rfl | rfl⟩ ⟨hnone, hempty⟩
    · rw [JsMap.get?_eq_some.mpr he] at hnone
      cases hnone
    · have hchild := mem_targets_children.mpr (JsMap.get?_eq_some.mpr he)
      rw [hempty] at hchild
      exact List.not_mem_nil hchild
  · intro h
    cases hentry : ppid.get? pid with
    | some parent => exact ⟨(pid, parent), JsMap.get?_eq_some.mp hentry, .inl rfl⟩
    | none =>
      cases htargets : targets (children ppid) pid with
      | nil => exact absurd ⟨hentry, htargets⟩ h
      | cons child rest =>
        have hchild : child ∈ targets (children ppid) pid := htargets ▸ List.mem_cons_self
        exact ⟨(child, pid), JsMap.get?_eq_some.mp (mem_targets_children.mp hchild), .inr rfl⟩

variable (roots ppid) in
/-- The walk to the kill target ended at the child of a root of that session, or found none. -/
def Meets (top : Option ℤ) (session : String) : Prop :=
  match top with
  | some top => ∃ parent, ppid.get? top = some parent ∧ roots.get? parent = some session
  | none => session = ""

theorem sessionFor_loop_of_root {id : String} (hproper : Proper roots)
    (hid : roots.get? pid = some id) : sessionFor.loop roots ppid (hops + 1) pid = id := by
  rw [sessionFor.loop, if_pos (hproper pid id hid).1]
  simp only [hid]

theorem sessionFor_loop_of_first (h : pid ≤ 1) : sessionFor.loop roots ppid hops pid = "" := by
  cases hops with
  | zero => rfl
  | succ hops => exact if_neg (by omega)

/-- Both walks meet the same ancestors, up to the one the second walk tests alone. -/
theorem walks_agree (hproper : Proper roots) (hpid : 1 < cur) (hroot : roots.get? cur = none)
    (hlimit : firstRootAt roots ppid hops cur = false) :
    Meets roots ppid (subtreeRoot.loop roots ppid hops cur)
      (sessionFor.loop roots ppid hops cur) := by
  induction hops generalizing cur with
  | zero => exact rfl
  | succ hops ih =>
    rw [subtreeRoot.loop, sessionFor.loop, if_pos hpid, hroot]
    cases hparent : ppid.get? cur with
    | none => exact rfl
    | some parent =>
      simp only
      cases hid : roots.get? parent with
      | some id =>
        rw [Option.isSome_some, if_pos rfl]
        cases hops with
        | zero => simp [firstRootAt, hparent, hid] at hlimit
        | succ hops => exact ⟨parent, hparent, by rw [hid, sessionFor_loop_of_root hproper hid]⟩
      | none =>
        rw [Option.isSome_none, if_neg Bool.false_ne_true]
        split_ifs with hfirst
        · exact sessionFor_loop_of_first hfirst
        · refine ih (by omega) hid ?_
          cases hops with
          | zero => rfl
          | succ hops => simpa [firstRootAt, hparent, hid, Int.not_le.mp hfirst] using hlimit

theorem loop_reach (h : subtreeRoot.loop roots ppid hops cur = some root) :
    Reach (children ppid) root cur := by
  induction hops generalizing cur with
  | zero => cases h
  | succ hops ih =>
    rw [subtreeRoot.loop] at h
    cases hparent : ppid.get? cur with
    | none => simp [hparent] at h
    | some parent =>
      simp only [hparent] at h
      split_ifs at h
      · cases h
        exact .refl
      · exact (ih h).tail (mem_targets_children.mpr hparent)

theorem reach_subtreeRoot (owner : ℤ) :
    Reach (children ppid) (subtreeRoot roots ppid owner) owner := by
  unfold subtreeRoot
  cases h : subtreeRoot.loop roots ppid maxAncestryHops owner with
  | none => exact .refl
  | some root => exact loop_reach h

theorem descendants_total (h : ppid.size + 1 < steps) :
    ∃ found, descendants ppid steps root = some found := by
  unfold descendants
  split_ifs
  · exact ⟨[], rfl⟩
  · apply search_total
    have hle : (unlisted (children ppid) []).length ≤ (children ppid).length :=
      List.length_filter_le _ _
    rw [children, List.length_map] at hle
    rw [List.length_singleton, children]
    unfold JsMap.size at h
    omega

theorem mem_descendants (h : descendants ppid steps root = some found) :
    pid ∈ found ↔ Listed ppid root ∧ Reach (children ppid) root pid := by
  rw [listed_iff]
  unfold descendants at h
  split_ifs at h with hgone
  · cases h
    simp [hgone]
  · rw [mem_search h, and_iff_right hgone]

/-- A process other than the start of a walk that ends in it is listed with the start. -/
theorem listed_of_reach (h : Reach (children ppid) root pid) (hne : root ≠ pid) :
    Listed ppid root ∧ Listed ppid pid := by
  constructor
  · rcases h.cases_head with rfl | ⟨child, hchild, -⟩
    · exact absurd rfl hne
    · exact ⟨_, JsMap.get?_eq_some.mp (mem_targets_children.mp hchild), .inr rfl⟩
  · rcases h.cases_tail with rfl | ⟨parent, -, hchild⟩
    · exact absurd rfl hne
    · exact ⟨_, JsMap.get?_eq_some.mp (mem_targets_children.mp hchild), .inl rfl⟩

theorem subtreeRoot_loop_none {parent : ℤ}
    (h : subtreeRoot.loop roots ppid (hops + 1) cur = none)
    (hparent : ppid.get? cur = some parent) : roots.get? parent = none := by
  rw [subtreeRoot.loop, hparent] at h
  simp only at h
  split_ifs at h with hroot hfirst
  all_goals simpa using hroot

/-- Away from the limit of the two walks, they find the same session or neither finds one. -/
theorem subtreeRoot_agrees (hproper : Proper roots) (howner : 1 < owner)
    (hroot : roots.get? owner = none)
    (hlimit : firstRootAt roots ppid maxAncestryHops owner = false) :
    (sessionFor roots ppid owner ≠ "" ↔
      ∃ parent, ppid.get? (subtreeRoot roots ppid owner) = some parent ∧
        (roots.get? parent).isSome) ∧
    (∀ parent id, ppid.get? (subtreeRoot roots ppid owner) = some parent →
      roots.get? parent = some id → sessionFor roots ppid owner = id) ∧
    (sessionFor roots ppid owner = "" → subtreeRoot roots ppid owner = owner) := by
  have hmeets : Meets roots ppid _ (sessionFor roots ppid owner) :=
    walks_agree hproper howner hroot hlimit
  unfold subtreeRoot
  cases htop : subtreeRoot.loop roots ppid maxAncestryHops owner with
  | some top =>
    rw [htop] at hmeets
    obtain ⟨parent, hparent, hid⟩ := hmeets
    have hnamed := (hproper parent _ hid).2
    refine ⟨iff_of_true hnamed ⟨parent, hparent, by rw [hid]; rfl⟩, ?_, fun h => absurd h hnamed⟩
    intro parent' id hparent' hid'
    cases hparent.symm.trans hparent'
    exact Option.some.inj (hid.symm.trans hid')
  | none =>
    rw [htop] at hmeets
    have habsent : ∀ parent, ppid.get? owner = some parent → roots.get? parent = none :=
      fun parent hparent => subtreeRoot_loop_none htop hparent
    refine ⟨iff_of_false (fun h => h hmeets) ?_, ?_, fun _ => rfl⟩
    · rintro ⟨parent, hparent, hsome⟩
      rw [habsent parent hparent] at hsome
      cases hsome
    · intro parent id hparent hid
      rw [habsent parent hparent] at hid
      cases hid

theorem owner_mem_descendants
    (h : descendants ppid steps (subtreeRoot roots ppid owner) = some found) :
    owner ∈ found ↔ Listed ppid owner := by
  rw [mem_descendants h, and_iff_left (reach_subtreeRoot owner)]
  by_cases hself : subtreeRoot roots ppid owner = owner
  · rw [hself]
  · obtain ⟨htop, hown⟩ := listed_of_reach (reach_subtreeRoot owner) hself
    exact iff_of_true htop hown

/-- Away from the limit of the two walks, the process to kill lies under a session root exactly if
the port is shown under a session, and then under that session's root; else it is the owner. The
search of its subtree ends on every table, and finds the owner unless that has left the table. -/
theorem kill_target_attributed (hproper : Proper roots) (howner : 1 < owner)
    (hroot : roots.get? owner = none)
    (hlimit : firstRootAt roots ppid maxAncestryHops owner = false)
    (hsteps : ppid.size + 1 < steps) :
    (sessionFor roots ppid owner ≠ "" ↔
      ∃ parent, ppid.get? (subtreeRoot roots ppid owner) = some parent ∧
        (roots.get? parent).isSome) ∧
    (∀ parent id, ppid.get? (subtreeRoot roots ppid owner) = some parent →
      roots.get? parent = some id → sessionFor roots ppid owner = id) ∧
    (sessionFor roots ppid owner = "" → subtreeRoot roots ppid owner = owner) ∧
    ∃ found, descendants ppid steps (subtreeRoot roots ppid owner) = some found ∧
      (owner ∈ found ↔ Listed ppid owner) := by
  obtain ⟨hiff, hsession, hself⟩ := subtreeRoot_agrees hproper howner hroot hlimit
  obtain ⟨found, hfound⟩ : ∃ found, descendants ppid steps (subtreeRoot roots ppid owner) =
      some found := descendants_total hsteps
  exact ⟨hiff, hsession, hself, found, hfound, owner_mem_descendants hfound⟩

/-- So many processes from the third on, each the child of the one before it. -/
def chain (n : ℕ) : JsMap ℤ ℤ where
  rows := (List.range n).map fun (k : ℕ) => ((k : ℤ) + 3, (k : ℤ) + 2)
  nodup := by
    rw [List.map_map]
    exact List.nodup_range.map fun _ _ h => by simpa using h

theorem proper_tab : Proper (JsMap.empty.set 2 "tab") := by
  intro pid id h
  rw [JsMap.get?_set] at h
  split_ifs at h with hpid
  · cases h
    exact ⟨by omega, by decide⟩
  · cases h

theorem kill_target_of_chain :
    sessionFor (JsMap.empty.set 2 "tab") (chain 5) 7 = "tab" ∧
    subtreeRoot (JsMap.empty.set 2 "tab") (chain 5) 7 = 3 ∧
    ((sessionFor (JsMap.empty.set 2 "tab") (chain 5) 7 ≠ "" ↔
      ∃ parent, (chain 5).get? (subtreeRoot (JsMap.empty.set 2 "tab") (chain 5) 7) = some parent ∧
        ((JsMap.empty.set 2 "tab" : JsMap ℤ String).get? parent).isSome) ∧
    (∀ parent id,
      (chain 5).get? (subtreeRoot (JsMap.empty.set 2 "tab") (chain 5) 7) = some parent →
      (JsMap.empty.set 2 "tab" : JsMap ℤ String).get? parent = some id →
      sessionFor (JsMap.empty.set 2 "tab") (chain 5) 7 = id) ∧
    (sessionFor (JsMap.empty.set 2 "tab") (chain 5) 7 = "" →
      subtreeRoot (JsMap.empty.set 2 "tab") (chain 5) 7 = 7) ∧
    ∃ found, descendants (chain 5) 7 (subtreeRoot (JsMap.empty.set 2 "tab") (chain 5) 7) =
        some found ∧ (7 ∈ found ↔ Listed (chain 5) 7)) := by
  refine ⟨by decide +kernel, by decide +kernel, kill_target_attributed proper_tab (by decide)
    (by decide +kernel) (by decide +kernel) (by decide +kernel)⟩

/-- With a root that far up, only the walk to the kill target finds it; a nameless session and a
root that is the first process are not shown; a process that has left the table has no subtree. -/
theorem attribution_limits :
    (subtreeRoot (JsMap.empty.set 2 "tab") (chain 32) 34 = 3 ∧ (chain 32).get? 3 = some 2 ∧
      sessionFor (JsMap.empty.set 2 "tab") (chain 32) 34 = "") ∧
    (subtreeRoot (JsMap.empty.set 2 "") (chain 5) 7 = 3 ∧ (chain 5).get? 3 = some 2 ∧
      sessionFor (JsMap.empty.set 2 "") (chain 5) 7 = "") ∧
    (subtreeRoot (JsMap.empty.set 1 "tab") (JsMap.empty.set 3 1) 3 = 3 ∧
      (JsMap.empty.set 3 1 : JsMap ℤ ℤ).get? 3 = some 1 ∧
      sessionFor (JsMap.empty.set 1 "tab") (JsMap.empty.set 3 1) 3 = "") ∧
    descendants JsMap.empty 2 (subtreeRoot (JsMap.empty.set 2 "tab") JsMap.empty 3) = some [] := by
  decide +kernel

end ClaudeFleet.PortOwners
