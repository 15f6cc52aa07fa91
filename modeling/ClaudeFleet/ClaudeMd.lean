import ClaudeFleet.LoadoutText
import ClaudeFleet.MarkedRegions

/-! CLAUDE.md as the loadouts and the role brief write it: the user's text, a block for each loadout
that is applied, and first of all the brief. -/
namespace ClaudeFleet.Loadout
open Occurrence Regions

def briefStart : Text := '<' :: "!-- claude-fleet:role-automations start -->".toList

def briefEnd : Text := '<' :: "!-- claude-fleet:role-automations end -->".toList

def briefBlock (brief : Text) : Text := briefStart ++ '\n' :: (brief ++ '\n' :: briefEnd)

/-- The brief goes first; null takes it out. -/
def spliceRoleBrief (prior : Text) (block : Option Text) : Text :=
  let rest := trim (strip '\n' briefStart briefEnd prior.length prior)
  match block with
  | none => if rest = [] then [] else rest ++ ['\n']
  | some block =>
    if rest = [] then block ++ ['\n'] else block ++ '\n' :: '\n' :: rest ++ ['\n']

/-- What is done to the file, which is written only where its text changes. -/
def updateRoleBrief (file : Option Text) (block : Option Text) : Option Text :=
  let next := spliceRoleBrief (file.getD []) block
  if next = file.getD [] then file else if next = [] then none else some next

inductive Op
  | apply (id : LoadoutId) (content : Text)
  | revert (id : LoadoutId)
  | brief (text : Option Text)

def perform (file : Option Text) : Op → Option Text
  | .apply id content => some (appendBlock (file.getD []) id content)
  | .revert id => removeBlock file id
  | .brief text => updateRoleBrief file (text.map briefBlock)

/-! The markers. -/

inductive Mark
  | brief
  | loadout (id : LoadoutId)
  deriving DecidableEq

def loadoutMarker (id : LoadoutId) (tail : Text) (hfirst : '<' ∉ tail) (hsep : '\n' ∉ tail) :
    Marker '\n' isSpace where
  first := '<'
  mid := markerRest id tail
  last := '>'
  once := by
    rw [List.mem_append, not_or]
    exact ⟨markerRest_not_mem id (by decide) (by decide +kernel) hfirst, by decide⟩
  unbroken := markerRest_not_mem id (by decide) (by decide +kernel) hsep
  front := by decide
  back := by decide

theorem loadoutMarker_word (id : LoadoutId) (tail : Text) (hfirst : '<' ∉ tail)
    (hsep : '\n' ∉ tail) :
    (loadoutMarker id tail hfirst hsep).word = '<' :: markerRest id (tail ++ ['>']) :=
  congrArg ('<' :: ·) (List.append_assoc _ _ _)

def startTail : Text := ' ' :: "start --".toList

def endTail : Text := ' ' :: "end --".toList

def startMarker : Mark → Marker '\n' isSpace
  | .brief =>
    ⟨'<', "!-- claude-fleet:role-automations start --".toList, '>', by decide +kernel,
      by decide +kernel, by decide, by decide⟩
  | .loadout id => loadoutMarker id startTail (by decide +kernel) (by decide +kernel)

def stopMarker : Mark → Marker '\n' isSpace
  | .brief =>
    ⟨'<', "!-- claude-fleet:role-automations end --".toList, '>', by decide +kernel,
      by decide +kernel, by decide, by decide⟩
  | .loadout id => loadoutMarker id endTail (by decide +kernel) (by decide +kernel)

theorem startMarker_loadout (id : LoadoutId) : (startMarker (.loadout id)).word = blockStart id := by
  have htail : startTail ++ ['>'] = ' ' :: "start -->".toList := by decide +kernel
  rw [blockStart_eq, ← htail]
  exact loadoutMarker_word id startTail (by decide +kernel) (by decide +kernel)

theorem stopMarker_loadout (id : LoadoutId) : (stopMarker (.loadout id)).word = blockEnd id := by
  have htail : endTail ++ ['>'] = ' ' :: "end -->".toList := by decide +kernel
  rw [blockEnd_eq, ← htail]
  exact loadoutMarker_word id endTail (by decide +kernel) (by decide +kernel)

theorem startMarker_brief : (startMarker .brief).word = briefStart := by
  decide +kernel

theorem stopMarker_brief : (stopMarker .brief).word = briefEnd := by
  decide +kernel

/-- The letter that tells the brief's markers from the loadouts'. -/
def fifth : Mark → Char
  | .brief => 'c'
  | .loadout _ => 'l'

theorem markerRest_fifth (id : LoadoutId) (tail : Text) :
    ∃ w, markerRest id tail = '!' :: '-' :: '-' :: ' ' :: 'l' :: w := by
  have hfront : ∃ w, "!-- loadout:".toList = '!' :: '-' :: '-' :: ' ' :: 'l' :: w :=
    ⟨"oadout:".toList, by decide +kernel⟩
  obtain ⟨w, hw⟩ := hfront
  refine ⟨w ++ (id.value ++ tail), ?_⟩
  unfold markerRest
  rw [hw, List.append_assoc]
  exact List.cons_append

theorem loadoutMarker_fifth (id : LoadoutId) (tail : Text) (hfirst : '<' ∉ tail)
    (hsep : '\n' ∉ tail) :
    ((loadoutMarker id tail hfirst hsep).mid ++ ['>'])[4]? = some 'l' ∧
      4 < ((loadoutMarker id tail hfirst hsep).mid ++ ['>']).length := by
  obtain ⟨w, hw⟩ := markerRest_fifth id tail
  have hmid : (loadoutMarker id tail hfirst hsep).mid = markerRest id tail := rfl
  rw [hmid, hw]
  exact ⟨rfl, by simp⟩

theorem startMarker_fifth (k : Mark) :
    ((startMarker k).mid ++ [(startMarker k).last])[4]? = some (fifth k) ∧
      4 < ((startMarker k).mid ++ [(startMarker k).last]).length := by
  cases k with
  | brief => decide +kernel
  | loadout id => exact loadoutMarker_fifth id startTail (by decide +kernel) (by decide +kernel)

theorem stopMarker_fifth (k : Mark) :
    ((stopMarker k).mid ++ [(stopMarker k).last])[4]? = some (fifth k) := by
  cases k with
  | brief => decide +kernel
  | loadout id => exact (loadoutMarker_fifth id endTail (by decide +kernel) (by decide +kernel)).1

theorem startMarker_first (k : Mark) : (startMarker k).first = '<' := by
  cases k <;> rfl

theorem stopMarker_first (k : Mark) : (stopMarker k).first = '<' := by
  cases k <;> rfl

theorem fifth_of_prefix {a b : Text} {c d : Char} (ha : a[4]? = some c ∧ 4 < a.length)
    (hb : b[4]? = some d) (h : a <+: b) : c = d := by
  obtain ⟨t, rfl⟩ := h
  rw [List.getElem?_append_left ha.2, ha.1] at hb
  exact Option.some.inj hb

/-- The brief's block and the loadouts'. -/
def markers : Markers Mark '\n' isSpace where
  start := startMarker
  stop := stopMarker
  sep_blank := isSpace_newline
  starts := by
    intro j k h
    have hpre := Marker.prefix_of_word
      ((startMarker_first j).trans (startMarker_first k).symm) h
    have hfifth := fifth_of_prefix (startMarker_fifth j) (startMarker_fifth k).1 hpre
    cases j with
    | brief =>
      cases k with
      | brief => rfl
      | loadout id => cases hfifth
    | loadout i =>
      cases k with
      | brief => cases hfifth
      | loadout j =>
        rw [startMarker_loadout, startMarker_loadout] at h
        rw [start_infix_start h]
  stops := by
    intro j k h
    have hpre := Marker.prefix_of_word
      ((startMarker_first j).trans (stopMarker_first k).symm) h
    have hfifth := fifth_of_prefix (startMarker_fifth j) (stopMarker_fifth k) hpre
    cases j with
    | brief =>
      cases k with
      | brief =>
        revert hpre
        decide +kernel
      | loadout id => cases hfifth
    | loadout i =>
      cases k with
      | brief => cases hfifth
      | loadout j =>
        rw [startMarker_loadout, stopMarker_loadout] at h
        exact start_not_infix_end i j h

theorem stripBlocks_eq (id : LoadoutId) (fuel : ℕ) (text : Text) :
    stripBlocks id fuel text = strip '\n' (blockStart id) (blockEnd id) fuel text := by
  induction fuel generalizing text with
  | zero => rfl
  | succ fuel ih =>
    rw [stripBlocks, strip]
    cases cut (blockStart id) text with
    | none => rfl
    | some p =>
      dsimp only
      cases cut (blockEnd id) p.2 with
      | none => rfl
      | some q => simp only [ih]

theorem stripBlock_eq (text : Text) (id : LoadoutId) :
    stripBlock text id = markers.erased (.loadout id) text := by
  rw [stripBlock, stripBlocks_eq, ← startMarker_loadout, ← stopMarker_loadout]
  rfl

theorem stripBrief_eq (text : Text) :
    strip '\n' briefStart briefEnd text.length text = markers.erased .brief text := by
  rw [← startMarker_brief, ← stopMarker_brief]
  rfl

theorem briefBlock_eq (brief : Text) : briefBlock brief = markers.text (.region .brief brief) := by
  rw [briefBlock, ← startMarker_brief, ← stopMarker_brief]
  rfl

/-! What the file shows. -/

/-- The user's lines and the blocks, each known by its mark. -/
structure Page where
  user : List Text
  blocks : Mark → Option Text

def Page.set (page : Page) (k : Mark) (text : Option Text) : Page :=
  { page with blocks := Function.update page.blocks k text }

def Op.mark : Op → Mark
  | .apply id _ => .loadout id
  | .revert id => .loadout id
  | .brief _ => .brief

/-- The text of the operation's block after it. -/
def Op.leaves : Op → Option Text
  | .apply _ content => some (trim content)
  | .revert _ => none
  | .brief text => text

/-- No marker is in the texts that the operation brings. -/
def Op.Free : Op → Prop
  | .apply _ content => markers.Free content
  | .revert _ => True
  | .brief text => ∀ brief ∈ text, markers.Free brief

def Page.step (page : Page) (op : Op) : Page := page.set op.mark op.leaves

/-- The page of a text: every region its block, and the rest of it the user's lines. -/
def pageOf (ps : List (ℕ × Part Mark Char)) : Page :=
  ⟨(plains ps).flatMap nonBlank, fun k => content k ps⟩

/-- Pieces with the brief before everything else, and what trimming can take from the user's text
blank lines. -/
structure Tidy (ps : List (ℕ × Part Mark Char)) : Prop where
  laid : markers.Laid ps
  briefFirst : ∀ p ∈ ps.tail, p.2.key ≠ some .brief
  lines : ∀ t ∈ plains ps, FrontLines t

/-- The text is the pieces of the page, with line breaks between them. -/
def Shows (text : Text) (page : Page) : Prop :=
  ∃ ps w, Tidy ps ∧ pageOf ps = page ∧ markers.After ps w ∧ text = markers.join ps ++ w

theorem Page.set_comm (page : Page) {j k : Mark} (h : j ≠ k) (s t : Option Text) :
    (page.set j s).set k t = (page.set k t).set j s := by
  simp only [Page.set, Function.update_comm h]

theorem Page.set_set (page : Page) (k : Mark) (s t : Option Text) :
    (page.set k s).set k t = page.set k t := by
  simp only [Page.set, Function.update_idem]

theorem Page.ext_blocks {page page' : Page} (huser : page.user = page'.user)
    (hblocks : ∀ k, page.blocks k = page'.blocks k) : page = page' := by
  obtain ⟨user, blocks⟩ := page
  obtain ⟨user', blocks'⟩ := page'
  obtain rfl : user = user' := huser
  obtain rfl : blocks = blocks' := funext hblocks
  rfl

namespace Tidy
variable {ps : List (ℕ × Part Mark Char)} {k : Mark}

theorem mem_tail_erase {p : ℕ × Part Mark Char} (h : markers.Laid ps)
    (hp : p ∈ (Regions.erase k ps).tail) : ∃ q ∈ ps.tail, q.2 = p.2 := by
  obtain hnone | ⟨xs, gap, t, ys, rfl, hxs, -⟩ := h.split k
  · rw [erase_of_not_mem hnone] at hp
    exact ⟨p, hp, rfl⟩
  · rw [erase_append hxs rfl] at hp
    cases xs with
    | nil =>
      have hmem := List.mem_of_mem_tail hp
      obtain ⟨q, hq, heq⟩ := mem_closeGap hmem
      exact ⟨q, hq, heq⟩
    | cons x xs =>
      obtain hp | hp := List.mem_append.mp hp
      · exact ⟨p, List.mem_append_left _ hp, rfl⟩
      · obtain ⟨q, hq, heq⟩ := mem_closeGap hp
        exact ⟨q, List.mem_append_right _ (List.mem_cons_of_mem _ hq), heq⟩

theorem erase (h : Tidy ps) (k : Mark) : Tidy (Regions.erase k ps) := by
  refine ⟨h.laid.erase k, fun p hp => ?_, ?_⟩
  · obtain ⟨q, hq, heq⟩ := mem_tail_erase h.laid hp
    exact heq ▸ h.briefFirst q hq
  · rw [plains_erase h.laid]
    exact h.lines

theorem pageOf_erase (h : Tidy ps) (k : Mark) :
    pageOf (Regions.erase k ps) = (pageOf ps).set k none := by
  refine Page.ext_blocks ?_ fun j => ?_
  · simp [pageOf, Page.set, plains_erase h.laid]
  · simp [pageOf, Page.set, content_erase h.laid, Function.update_apply]

theorem trimFront (h : Tidy ps) : Tidy (Regions.trimFront isSpace ps) := by
  refine ⟨h.laid.trimFront, ?_, ?_⟩
  · cases ps with
    | nil => exact h.briefFirst
    | cons p ps => exact h.briefFirst
  · cases ps with
    | nil => exact h.lines
    | cons p ps =>
      obtain ⟨gap, t | ⟨j, t⟩⟩ := p
      · refine List.forall_mem_cons.mpr ⟨.inl ?_, (List.forall_mem_cons.mp h.lines).2⟩
        rw [List.takeWhile_eq_nil_iff]
        exact fun hlen => List.dropWhile_get_zero_not isSpace t hlen
      · exact h.lines

theorem pageOf_trimFront (h : Tidy ps) : pageOf (Regions.trimFront isSpace ps) = pageOf ps := by
  refine Page.ext_blocks ?_ fun j => content_trimFront j
  cases ps with
  | nil => rfl
  | cons p ps =>
    obtain ⟨gap, t | ⟨j, t⟩⟩ := p
    · have ht : FrontLines t := h.lines t List.mem_cons_self
      exact congrArg (· ++ (plains ps).flatMap nonBlank) (nonBlank_dropWhile ht)
    · rfl

theorem concat (h : Tidy ps) {id : LoadoutId} {t : Text} (ht : markers.Free t)
    (hk : ∀ p ∈ ps, p.2.key ≠ some (.loadout id)) {gap : ℕ} (hgap : ps = [] ∨ 1 ≤ gap) :
    Tidy (ps ++ [(gap, .region (.loadout id) t)]) := by
  refine ⟨h.laid.concat ht hk hgap, fun p hp => ?_, fun u hu => h.lines u ?_⟩
  · cases ps with
    | nil => cases hp
    | cons q ps =>
      obtain hp | hp := List.mem_append.mp hp
      · exact h.briefFirst p hp
      · obtain rfl := List.mem_singleton.mp hp
        simp [Part.key]
  · rwa [plains_concat] at hu

theorem pageOf_concat {gap : ℕ} {t : Text} (hk : ∀ p ∈ ps, p.2.key ≠ some k) :
    pageOf (ps ++ [(gap, .region k t)]) = (pageOf ps).set k (some t) := by
  refine Page.ext_blocks ?_ fun j => ?_
  · simp [pageOf, Page.set, plains_concat]
  · simp [pageOf, Page.set, content_concat hk, Function.update_apply]

theorem cons (h : Tidy ps) {t : Text} (ht : markers.Free t)
    (hk : ∀ p ∈ ps, p.2.key ≠ some .brief)
    (hhead : ∀ p ∈ ps.head?, (markers.text p.2).head? ≠ some '\n') :
    Tidy ((0, .region .brief t) :: closeGap 2 ps) := by
  refine ⟨h.laid.cons ht hk hhead (by decide), fun p hp => ?_, fun u hu => h.lines u ?_⟩
  · obtain ⟨q, hq, heq⟩ := mem_closeGap hp
    exact heq ▸ hk q hq
  · rwa [plains_cons] at hu

theorem pageOf_cons {gap : ℕ} {t : Text} :
    pageOf ((0, .region k t) :: closeGap gap ps) = (pageOf ps).set k (some t) := by
  refine Page.ext_blocks ?_ fun j => ?_
  · simp [pageOf, Page.set, plains_cons]
  · simp [pageOf, Page.set, content_cons, Function.update_apply]

theorem head_trimFront : ∀ p ∈ (Regions.trimFront isSpace ps).head?,
    (markers.text p.2).head? ≠ some '\n' := by
  cases ps with
  | nil => simp [Regions.trimFront]
  | cons q ps =>
    intro p hp hhead
    obtain rfl := Option.some.inj hp
    have hsolid := Markers.head_trimStart (M := markers) q.2 '\n' hhead
    cases hsolid

end Tidy

theorem shows_nil {page : Page} (h : Shows [] page) (k : Mark) : page.set k none = page := by
  obtain ⟨ps, w, htidy, rfl, -, htext⟩ := h
  have hps : ps = [] :=
    (Markers.join_eq_nil htidy.laid).mp (List.append_eq_nil_iff.mp htext.symm).1
  subst hps
  exact Page.ext_blocks rfl fun j => by simp [Page.set, pageOf, content]

theorem shows_join {ps : List (ℕ × Part Mark Char)} (h : Tidy ps) :
    Shows (markers.join ps ++ ['\n']) (pageOf ps) :=
  ⟨ps, ['\n'], h, rfl, ⟨by simp [isSpace_newline], .inr (.inr rfl)⟩, rfl⟩

/-- What is left of a file without the block of a mark. -/
theorem rest_of {text : Text} {page : Page} (h : Shows text page) (k : Mark) :
    ∃ ps, Tidy ps ∧ (∀ p ∈ ps, p.2.key ≠ some k) ∧ pageOf ps = page.set k none ∧
      trimEnd (markers.erased k text) = markers.join ps ∧
      trim (markers.erased k text) = markers.join (trimFront isSpace ps) := by
  obtain ⟨ps, w, htidy, rfl, hw, rfl⟩ := h
  obtain ⟨w', hw', herased⟩ := Markers.erased_join (k := k) htidy.laid hw
  refine ⟨erase k ps, htidy.erase k, ?_, htidy.pageOf_erase k, ?_, ?_⟩
  · rw [← content_eq_none, content_erase htidy.laid]
    exact if_pos rfl
  · rw [herased]
    exact Markers.rdropWhile_join (htidy.laid.erase k) hw'.1
  · rw [herased]
    exact Markers.trim_join (htidy.laid.erase k) hw'.1

/-- The pieces with a block at their end, two line breaks after what is before it. -/
def withLast (ps : List (ℕ × Part Mark Char)) (id : LoadoutId) (t : Text) :
    List (ℕ × Part Mark Char) :=
  ps ++ [(if ps = [] then 0 else 2, .region (.loadout id) t)]

theorem appendBlock_join {prior : Text} {id : LoadoutId} {content : Text}
    {ps : List (ℕ × Part Mark Char)} (h : Tidy ps)
    (hbase : trimEnd (markers.erased (.loadout id) prior) = markers.join ps) :
    appendBlock prior id content = markers.join (withLast ps id (trim content)) ++ ['\n'] := by
  have hblock : blockStart id ++ '\n' :: trim content ++ '\n' :: blockEnd id =
      markers.text (.region (.loadout id) (trim content)) := by
    rw [← startMarker_loadout, ← stopMarker_loadout, List.append_assoc]
    rfl
  rw [appendBlock, stripBlock_eq, hbase, hblock]
  simp only [Markers.join_eq_nil h.laid, withLast, Markers.join_append, Markers.join]
  split_ifs with hps
  · simp [hps, Markers.join]
  · simp [List.replicate]

theorem withLast_tidy {ps : List (ℕ × Part Mark Char)} {id : LoadoutId} {t : Text} (h : Tidy ps)
    (ht : markers.Free t) (hk : ∀ p ∈ ps, p.2.key ≠ some (.loadout id)) :
    Tidy (withLast ps id t) := by
  refine h.concat ht hk ?_
  by_cases hps : ps = []
  · exact .inl hps
  · exact .inr (by simp [hps])

theorem Free.mono {s t : Text} (h : markers.Free t) (hs : s <:+: t) : markers.Free s :=
  fun k => ⟨fun hin => (h k).1 (hin.trans hs), fun hin => (h k).2 (hin.trans hs)⟩

theorem trim_isInfix (text : Text) : trim text <:+: text :=
  (List.rdropWhile_prefix isSpace (text.dropWhile isSpace)).isInfix.trans
    (List.dropWhile_suffix isSpace).isInfix

theorem appendBlock_shows {prior : Text} {page : Page} (h : Shows prior page) (id : LoadoutId)
    {content : Text} (hfree : markers.Free content) :
    Shows (appendBlock prior id content) (page.set (.loadout id) (some (trim content))) ∧
      appendBlock (appendBlock prior id content) id content = appendBlock prior id content := by
  obtain ⟨ps, htidy, hk, hpage, hbase, -⟩ := rest_of h (.loadout id)
  have ht := Free.mono hfree (trim_isInfix content)
  have htidy' := withLast_tidy htidy ht hk
  have hjoin : appendBlock prior id content =
      markers.join (withLast ps id (trim content)) ++ ['\n'] := appendBlock_join htidy hbase
  constructor
  · rw [hjoin, ← Page.set_set page (.loadout id) none, ← hpage, ← Tidy.pageOf_concat hk]
    exact shows_join htidy'
  · have hafter : markers.After (withLast ps id (trim content)) ['\n'] :=
      ⟨by simp [isSpace_newline], .inr (.inr rfl)⟩
    obtain ⟨w, hw, herased⟩ := Markers.erased_join (k := Mark.loadout id) htidy'.laid hafter
    have hlast : erase (.loadout id) (withLast ps id (trim content)) = ps := by
      rw [withLast, erase_append hk rfl]
      exact List.append_nil ps
    rw [hlast] at herased
    rw [appendBlock_join htidy ?_, hjoin]
    rw [hjoin, herased]
    exact Markers.rdropWhile_join htidy.laid hw.1

/-- Trimmed pieces without a block come out of the removal of that block, whether it was there or
not, and of the trimming after it. -/
theorem trim_erased {ps qs : List (ℕ × Part Mark Char)} {k : Mark} {w : Text} (h : Tidy qs)
    (hw : markers.After qs w) (herase : erase k qs = ps) :
    trim (markers.erased k (markers.join qs ++ w)) = markers.join (trimFront isSpace ps) := by
  obtain ⟨w', hw', herased⟩ := Markers.erased_join (k := k) h.laid hw
  rw [herased, ← herase]
  exact Markers.trim_join (h.laid.erase k) hw'.1

theorem free_trimFront {ps : List (ℕ × Part Mark Char)} {k : Mark}
    (hk : ∀ p ∈ ps, p.2.key ≠ some k) : ∀ p ∈ trimFront isSpace ps, p.2.key ≠ some k := by
  rw [← content_eq_none, content_trimFront, content_eq_none]
  exact hk

theorem removeBlock_shows {file : Option Text} {page : Page} (h : Shows (file.getD []) page)
    (id : LoadoutId) :
    Shows ((removeBlock file id).getD []) (page.set (.loadout id) none) ∧
      removeBlock (removeBlock file id) id = removeBlock file id := by
  cases file with
  | none =>
    rw [shows_nil h (.loadout id)]
    exact ⟨h, rfl⟩
  | some prior =>
    obtain ⟨ps, htidy, hk, hpage, -, hrest⟩ := rest_of h (.loadout id)
    rw [Option.getD_some] at hrest
    have hpage' : pageOf (trimFront isSpace ps) = page.set (.loadout id) none := by
      rw [htidy.pageOf_trimFront, hpage]
    have hremove : removeBlock (some prior) id =
        if markers.join (trimFront isSpace ps) = [] then none
        else some (markers.join (trimFront isSpace ps) ++ ['\n']) := by
      rw [removeBlock, stripBlock_eq, hrest]
    rw [hremove, ← hpage']
    split_ifs with hnil
    · refine ⟨⟨trimFront isSpace ps, [], htidy.trimFront, rfl, ⟨by simp, .inr (.inl rfl)⟩, ?_⟩, rfl⟩
      simp [hnil]
    · refine ⟨shows_join htidy.trimFront, ?_⟩
      have hagain := trim_erased (k := .loadout id) (w := ['\n']) htidy.trimFront
        ⟨by simp [isSpace_newline], .inr (.inr rfl)⟩ (erase_of_not_mem (free_trimFront hk))
      rw [trimFront_trimFront] at hagain
      rw [removeBlock, stripBlock_eq, hagain, if_neg hnil]

/-- The pieces with the brief before them. -/
def withBrief (ps : List (ℕ × Part Mark Char)) : Option Text → List (ℕ × Part Mark Char)
  | none => ps
  | some brief => (0, .region .brief brief) :: closeGap 2 ps

theorem spliceRoleBrief_join {prior : Text} {ps : List (ℕ × Part Mark Char)} (h : Tidy ps)
    (hrest : trim (markers.erased .brief prior) = markers.join (trimFront isSpace ps))
    (brief : Option Text) :
    ∃ w, markers.After (withBrief (trimFront isSpace ps) brief) w ∧
      spliceRoleBrief prior (brief.map briefBlock) =
        markers.join (withBrief (trimFront isSpace ps) brief) ++ w := by
  have hline : ∀ qs, markers.After qs ['\n'] :=
    fun qs => ⟨by simp [isSpace_newline], .inr (.inr rfl)⟩
  unfold spliceRoleBrief
  rw [stripBrief_eq, hrest]
  simp only [Markers.join_eq_nil h.trimFront.laid]
  cases brief with
  | none =>
    dsimp only [Option.map_none]
    split_ifs with hps
    · exact ⟨[], ⟨by simp, .inr (.inl rfl)⟩, by simp [withBrief, hps, Markers.join]⟩
    · exact ⟨['\n'], hline _, rfl⟩
  | some brief =>
    refine ⟨['\n'], hline _, ?_⟩
    dsimp only [Option.map_some]
    rw [briefBlock_eq]
    cases hps : trimFront isSpace ps with
    | nil => simp [withBrief, closeGap, Markers.join]
    | cons p qs =>
      have hp : p.1 = 0 := by
        cases ps with
        | nil => cases hps
        | cons q ps =>
          obtain ⟨rfl, -⟩ := List.cons.inj hps
          rfl
      obtain ⟨gap, p⟩ := p
      obtain rfl : gap = 0 := hp
      simp [withBrief, closeGap, Markers.join, List.replicate]

theorem withBrief_tidy {ps : List (ℕ × Part Mark Char)} (h : Tidy ps)
    (hk : ∀ p ∈ ps, p.2.key ≠ some .brief) {brief : Option Text}
    (hfree : ∀ b ∈ brief, markers.Free b) :
    Tidy (withBrief (trimFront isSpace ps) brief) ∧
      pageOf (withBrief (trimFront isSpace ps) brief) = (pageOf ps).set .brief brief ∧
      trimFront isSpace (erase .brief (withBrief (trimFront isSpace ps) brief)) =
        trimFront isSpace ps := by
  have hk' := free_trimFront hk
  cases brief with
  | none =>
    have hnone : (pageOf ps).set .brief none = pageOf ps := by
      refine Page.ext_blocks rfl fun j => ?_
      have hbrief : content .brief ps = none := content_eq_none.mpr hk
      by_cases hj : j = .brief <;> simp [Page.set, pageOf, hj, hbrief]
    refine ⟨h.trimFront, ?_, ?_⟩
    · rw [hnone]
      exact h.pageOf_trimFront
    · rw [withBrief, erase_of_not_mem hk', trimFront_trimFront]
  | some brief =>
    refine ⟨h.trimFront.cons (hfree brief rfl) hk' Tidy.head_trimFront, ?_, ?_⟩
    · rw [withBrief, Tidy.pageOf_cons, h.pageOf_trimFront]
    · simp [withBrief, erase, Part.key]

theorem updateRoleBrief_shows {file : Option Text} {page : Page} (h : Shows (file.getD []) page)
    {brief : Option Text} (hfree : ∀ b ∈ brief, markers.Free b) :
    Shows ((updateRoleBrief file (brief.map briefBlock)).getD []) (page.set .brief brief) ∧
      updateRoleBrief (updateRoleBrief file (brief.map briefBlock)) (brief.map briefBlock) =
        updateRoleBrief file (brief.map briefBlock) := by
  obtain ⟨ps, htidy, hk, hpage, -, hrest⟩ := rest_of h .brief
  obtain ⟨w, hw, hjoin⟩ := spliceRoleBrief_join htidy hrest brief
  obtain ⟨htidy', hpage', herase⟩ := withBrief_tidy htidy hk hfree
  have hnext : (updateRoleBrief file (brief.map briefBlock)).getD [] =
      spliceRoleBrief (file.getD []) (brief.map briefBlock) := by
    rw [updateRoleBrief]
    split_ifs with hsame hnil
    · exact hsame.symm
    · exact hnil.symm
    · rfl
  constructor
  · rw [hnext, hjoin, ← Page.set_set page .brief none, ← hpage, ← hpage']
    exact ⟨_, w, htidy', rfl, hw, rfl⟩
  · have hagain : spliceRoleBrief (spliceRoleBrief (file.getD []) (brief.map briefBlock))
        (brief.map briefBlock) = spliceRoleBrief (file.getD []) (brief.map briefBlock) := by
      have htrim := trim_erased (k := .brief) htidy' hw rfl
      rw [herase, ← hjoin, ← hrest] at htrim
      unfold spliceRoleBrief at htrim ⊢
      simp only [stripBrief_eq] at htrim ⊢
      rw [htrim]
    rw [updateRoleBrief, hnext, hagain]
    exact if_pos rfl

/-! Runs. -/

theorem perform_shows {file : Option Text} {page : Page} (h : Shows (file.getD []) page) {op : Op}
    (hop : op.Free) :
    Shows ((perform file op).getD []) (page.step op) ∧
      perform (perform file op) op = perform file op := by
  cases op with
  | apply id content =>
    obtain ⟨hshows, hagain⟩ := appendBlock_shows h id hop
    exact ⟨hshows, congrArg some hagain⟩
  | revert id => exact removeBlock_shows h id
  | brief text => exact updateRoleBrief_shows h hop

theorem run_shows {file : Option Text} {page : Page} (h : Shows (file.getD []) page)
    {ops : List Op} (hops : ∀ op ∈ ops, op.Free) :
    Shows ((ops.foldl perform file).getD []) (ops.foldl Page.step page) := by
  induction ops generalizing file page with
  | nil => exact h
  | cons op ops ih =>
    obtain ⟨hop, hops⟩ := List.forall_mem_cons.mp hops
    exact ih (perform_shows h hop).1 hops

/-- A page on which there is only the user's text. -/
def userPage (text : Text) : Page := ⟨nonBlank text, fun _ => none⟩

theorem user_shows {u : Text} (hfree : markers.Free u) (htrim : Trimmable u) :
    Shows u (userPage u) := by
  have hsplit := List.rdropWhile_append_rtakeWhile (p := isSpace) (l := u)
  have hspace : ∀ c ∈ u.rtakeWhile isSpace, isSpace c := fun c hc => List.mem_rtakeWhile_imp hc
  by_cases hnil : trimEnd u = []
  · have hall : ∀ c ∈ u, isSpace c := List.rdropWhile_eq_nil_iff.mp hnil
    refine ⟨[], u, ⟨⟨by simp, by simp, by simp⟩, by simp, by simp [plains]⟩, ?_,
      ⟨hall, .inl rfl⟩, rfl⟩
    exact Page.ext_blocks (nonBlank_of_space hall).symm fun _ => rfl
  · have hback : BackLines u := by
      obtain hall | ⟨-, hback⟩ := htrim
      · exact absurd (List.rdropWhile_eq_nil_iff.mpr hall) hnil
      · exact hback
    have hsound : markers.Sound (.plain (trimEnd u)) :=
      ⟨Free.mono hfree (List.rdropWhile_prefix isSpace u).isInfix, hnil, closed_trimEnd u⟩
    refine ⟨[(0, .plain (trimEnd u))], u.rtakeWhile isSpace,
      ⟨⟨by simpa using hsound, by simp, by simp [Part.key]⟩, by simp, ?_⟩, ?_,
      ⟨hspace, .inr hback⟩, ?_⟩
    · simpa [plains, Part.plain?] using frontLines_trimEnd htrim
    · refine Page.ext_blocks ?_ fun _ => rfl
      simpa [pageOf, plains, Part.plain?, userPage] using nonBlank_trimEnd htrim
    · have hjoin : markers.join [(0, .plain (trimEnd u))] = trimEnd u := by
        simp [Markers.join, Markers.text]
      rw [hjoin]
      exact hsplit.symm

theorem nonBlank_breaks (k : ℕ) (text : Text) :
    nonBlank (List.replicate k '\n' ++ text) = nonBlank text := by
  induction k with
  | zero => rfl
  | succ k ih =>
    rw [List.replicate_succ, List.cons_append, ← List.nil_append ('\n' :: _), nonBlank_append, ih]
    rfl

/-- Where there is no block, the lines of the file are the user's. -/
theorem nonBlank_join {ps : List (ℕ × Part Mark Char)} {w : Text} (h : markers.Laid ps)
    (hw : markers.After ps w) (hnone : ∀ k, content k ps = none) :
    nonBlank (markers.join ps ++ w) = (plains ps).flatMap nonBlank := by
  induction ps with
  | nil => exact nonBlank_of_space hw.1
  | cons p ps ih =>
    obtain ⟨hw', hnext⟩ := Markers.after_tail h hw
    obtain ⟨gap, t | ⟨k, t⟩⟩ := p
    · have hrest := ih h.tail hw' fun k => hnone k
      have htext : markers.join ((gap, .plain t) :: ps) ++ w =
          List.replicate gap '\n' ++ (t ++ (markers.join ps ++ w)) := by
        simp [Markers.join, Markers.text]
      have hplains : plains ((gap, .plain t) :: ps) = t :: plains ps := rfl
      rw [htext, nonBlank_breaks, hplains, List.flatMap_cons, ← hrest]
      obtain hnext | ⟨v, hv⟩ := hnext
      · rw [hnext, List.append_nil]
        exact (List.append_nil _).symm
      · rw [hv, nonBlank_append, ← List.nil_append ('\n' :: v), nonBlank_append]
        rfl
    · exact absurd (hnone k) (by simp [content, Part.region?])

/-- What holds after a run of operations: the file is made of the user's lines and of the blocks as
the run has left them, doing an operation again changes nothing, and two operations on different
blocks leave the same lines and blocks in either order. -/
structure Kept (start : Option Text) (ops : List Op) : Prop where
  shows : Shows ((ops.foldl perform start).getD [])
    (ops.foldl Page.step (userPage (start.getD [])))
  again : ∀ op, op.Free → perform (perform (ops.foldl perform start) op) op =
    perform (ops.foldl perform start) op
  commute : ∀ op op', op.Free → op'.Free → op.mark ≠ op'.mark → ∃ page,
    Shows ((perform (perform (ops.foldl perform start) op) op').getD []) page ∧
      Shows ((perform (perform (ops.foldl perform start) op') op).getD []) page

/-- Taking out a brief that is not there is enough to lose what is not a whole line. -/
theorem trimmable_of_kept {start : Option Text} (hfree : markers.Free (start.getD []))
    (h : Kept start [.brief none]) : Trimmable (start.getD []) := by
  obtain ⟨ps, w, htidy, hpage, hw, htext⟩ := h.shows
  have hblocks : ∀ k, content k ps = none := by
    intro k
    have hk := congrArg (fun page => page.blocks k) hpage
    simpa [pageOf, Page.step, Page.set, Op.mark, Op.leaves, userPage] using hk
  have hlines := nonBlank_join htidy.laid hw hblocks
  have huser : (plains ps).flatMap nonBlank = nonBlank (start.getD []) :=
    congrArg Page.user hpage
  have herased : strip '\n' briefStart briefEnd (start.getD []).length (start.getD []) =
      start.getD [] := by
    rw [← startMarker_brief]
    exact strip_of_not_infix (hfree .brief).1 _
  have hsplice : (updateRoleBrief start none).getD [] = spliceRoleBrief (start.getD []) none := by
    rw [updateRoleBrief]
    split_ifs with hsame hnil
    · exact hsame.symm
    · exact hnil.symm
    · rfl
  have hrun : ([Op.brief none].foldl perform start).getD [] =
      spliceRoleBrief (start.getD []) none := hsplice
  refine trimmable_of_nonBlank ?_
  rw [← huser, ← hlines, ← htext, hrun, spliceRoleBrief, herased]
  split_ifs with hnil
  · rw [hnil]
  · rw [nonBlank_append]
    exact (List.append_nil _).symm

/-- Every run keeps the user's lines and the blocks of a file without markers exactly when the white
space at the ends of the user's text is of whole lines. -/
theorem blocks_kept_iff {start : Option Text} (hfree : markers.Free (start.getD [])) :
    (∀ ops : List Op, (∀ op ∈ ops, op.Free) → Kept start ops) ↔ Trimmable (start.getD []) := by
  constructor
  · intro hall
    exact trimmable_of_kept hfree (hall _ (List.forall_mem_singleton.mpr (by simp [Op.Free])))
  · intro htrim ops hops
    have hshows := run_shows (user_shows hfree htrim) hops
    refine ⟨hshows, fun op hop => (perform_shows hshows hop).2, fun op op' hop hop' hmark => ?_⟩
    refine ⟨_, (perform_shows (perform_shows hshows hop).1 hop').1, ?_⟩
    have hother := (perform_shows (perform_shows hshows hop').1 hop).1
    rwa [Page.step, Page.step, Page.set_comm _ hmark.symm] at hother

theorem free_of_not_mem {t : Text} (h : '<' ∉ t) : markers.Free t := by
  have hword : ∀ m : Marker '\n' isSpace, m.first = '<' → ¬m.word <:+: t := by
    intro m hm hin
    exact h (hm ▸ hin.subset List.mem_cons_self)
  exact fun k => ⟨hword _ (startMarker_first k), hword _ (stopMarker_first k)⟩

theorem blocks_kept_notes :
    (∀ ops : List Op, (∀ op ∈ ops, op.Free) → Kept (some "# notes\n".toList) ops) ↔
      Trimmable "# notes\n".toList :=
  @blocks_kept_iff (some "# notes\n".toList) (free_of_not_mem (by decide +kernel))

/-- A first line that is indented is so no more. -/
theorem indented_line_moved :
    markers.Free "    make\n".toList ∧
      spliceRoleBrief "    make\n".toList none = "make\n".toList ∧
      ¬Kept (some "    make\n".toList) [.brief none] := by
  have hfree : markers.Free "    make\n".toList := free_of_not_mem (by decide +kernel)
  refine ⟨hfree, by decide +kernel, fun hkept => ?_⟩
  obtain hall | ⟨hfront | hfront, -⟩ := @trimmable_of_kept (some "    make\n".toList) hfree hkept
  · exact absurd (hall 'm' (by decide +kernel)) (by decide)
  · revert hfront
    decide +kernel
  · revert hfront
    decide +kernel

end ClaudeFleet.Loadout
