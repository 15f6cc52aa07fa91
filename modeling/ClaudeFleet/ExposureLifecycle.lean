import ClaudeFleet.Numbered
import ClaudeFleet.PortExposure
import ClaudeFleet.SelfDelimiting

/-! What holds of the exposures after any steps: one that has not ended for each port, the popups
of each, and the stored row, which follows the exposure's own. -/
namespace ClaudeFleet.PortExposure
open Js Transition PortMonitor

theorem repr_inj {m n : ℕ} (h : m.repr = n.repr) : m = n := by
  have hdigits := congrArg (fun s => Nat.ofDigitChars 10 (String.toList s) 0) h
  simpa only [Nat.toList_repr, Nat.ofDigitChars_toDigits (b := 10) (by decide) (by decide)]
    using hdigits

theorem colon_notMem_repr (n : ℕ) : (58 : UInt16) ∉ js n.repr := by
  intro h
  obtain ⟨c, hc, hu⟩ := List.mem_flatMap.mp h
  rw [Nat.toList_repr] at hc
  have hdigit := Char.isDigit_iff_toNat.mp (Nat.isDigit_of_mem_toDigits (by decide) (by decide) hc)
  have hle : c.toNat ≤ 57 := hdigit.2
  rw [units, if_pos (by omega), List.mem_singleton] at hu
  have hcolon := toUInt16_inj (m := 58) (by omega) (by omega) hu
  omega

/-- The port stands after the last colon. -/
theorem keyOf_inj {ws ws' : Text} {port port' : ℕ} (h : keyOf ws port = keyOf ws' port') :
    ws = ws' ∧ port = port' := by
  have hrev := congrArg List.reverse h
  simp only [keyOf, List.reverse_append, List.reverse_cons, List.append_assoc,
    List.singleton_append] at hrev
  obtain ⟨hport, hws⟩ := SelfDelimiting.cut_at_mark
    (by simpa using colon_notMem_repr port) (by simpa using colon_notMem_repr port') hrev
  exact ⟨List.reverse_inj.mp hws, repr_inj (js_inj.mp (List.reverse_inj.mp hport))⟩

def Write.id : Write → Text
  | .insert row => row.id
  | .update id _ => id

/-- The write stores the end of its exposure. -/
def Write.ends : Write → Bool
  | .insert row => row.endedAt.isSome
  | .update _ p => p.endedAt.isSome

/-- The stored row of an exposure after one more of its writes. -/
def Write.after (row : Option ExposureRow) : Write → Option ExposureRow
  | .insert row => some row
  | .update _ p => row.map fun row => row.assign p

def rowAfter (writes : List Write) : Option ExposureRow := writes.foldl Write.after none

theorem Write.get?_apply_self (sink : JsMap Text ExposureRow) (w : Write) :
    (w.apply sink).get? w.id = w.after (sink.get? w.id) := by
  cases w with
  | insert row => exact JsMap.get?_set_self _ _ _
  | update id p =>
    simp only [Write.apply, Write.id, Write.after]
    cases hrow : sink.get? id with
    | none => exact hrow
    | some row => exact JsMap.get?_set_self _ _ _

theorem Write.get?_apply_of_ne (sink : JsMap Text ExposureRow) {w : Write} {id : Text}
    (h : id ≠ w.id) : (w.apply sink).get? id = sink.get? id := by
  cases w with
  | insert row => exact JsMap.get?_set_of_ne _ _ h
  | update id' p =>
    simp only [Write.apply]
    cases sink.get? id' with
    | none => rfl
    | some row => exact JsMap.get?_set_of_ne _ _ h

/-- What holds of an exposure by itself: its writes make up its row and nothing follows the one that
ends it, a popup of a declaration is shown once, and any other only before all else. -/
structure Kept (row : ExposureRow) (serving declaredPopup : Bool) (popups : List Popup)
    (writes : List Write) (landed settled : ℕ) : Prop where
  made : rowAfter writes = some row
  insertFirst : ∃ row ups, writes = .insert row :: ups ∧ ∀ w ∈ ups, ∃ p, w = .update row.id p
  ids : ∀ w ∈ writes, w.id = row.id
  unended : row.endedAt = none → ∀ w ∈ writes, w.ends = false
  endsLast : ∀ w ∈ writes.dropLast, w.ends = false
  served : declaredPopup = true → serving = true
  undeclared : declaredPopup = false → ∀ e ∈ popups, e.declared = false
  declaredOnce : (popups.filter fun e => e.declared).length ≤ 1
  shown : popups ≠ [] → row.popupShownAt.isSome = true
  later : ∀ e ∈ popups.tail, e.declared = true
  fallback : ∀ e ∈ popups, e.declared = false → e.row.declaredAt = none
  settled_le : settled ≤ landed
  landed_le : landed ≤ writes.length

abbrev Live.Ok (l : Live) : Prop :=
  Kept l.row l.serving l.declaredPopup l.popups l.writes l.landed l.settled

/-- A change that keeps which exposure it is, its end and the writes so far. -/
structure Live.Keeps (l l' : Live) : Prop where
  ok : l'.Ok
  id : l'.row.id = l.row.id
  key : l'.key = l.key
  endedAt : l'.row.endedAt = l.row.endedAt
  landed : l'.landed = l.landed
  settled : l'.settled = l.settled
  writes : l.writes <+: l'.writes

theorem Live.Keeps.refl {l : Live} (h : l.Ok) : l.Keeps l :=
  ⟨h, rfl, rfl, rfl, rfl, rfl, List.prefix_refl _⟩

theorem Live.Keeps.trans {l m n : Live} (h : l.Keeps m) (h' : m.Keeps n) : l.Keeps n where
  ok := h'.ok
  id := h'.id.trans h.id
  key := h'.key.trans h.key
  endedAt := h'.endedAt.trans h.endedAt
  landed := h'.landed.trans h.landed
  settled := h'.settled.trans h.settled
  writes := h.writes.trans h'.writes

theorem rowAfter_append (writes : List Write) (w : Write) :
    rowAfter (writes ++ [w]) = w.after (rowAfter writes) := by
  simp [rowAfter]

/-- One more write of an exposure that has not ended. -/
theorem Live.Ok.patched {l : Live} (h : l.Ok) (hopen : l.row.endedAt = none) (p : ExposurePatch)
    (hshown : p.popupShownAt ≠ some none)
    (hended : (l.row.assign p).endedAt = none → p.endedAt = none) : (l.patch p).Ok where
  made := by rw [Live.patch, rowAfter_append, h.made]; rfl
  insertFirst := by
    obtain ⟨row, ups, hwrites, hups⟩ := h.insertFirst
    refine ⟨row, ups ++ [.update l.row.id p], by simp [Live.patch, hwrites], fun w hw => ?_⟩
    rcases List.mem_append.mp hw with hw | hw
    · exact hups w hw
    · have hid : row.id = l.row.id := h.ids (.insert row) (hwrites ▸ List.mem_cons_self)
      exact ⟨p, by rw [List.mem_singleton.mp hw, hid]⟩
  ids := fun w hw => by
    rcases List.mem_append.mp hw with hw | hw
    · exact h.ids w hw
    · rw [List.mem_singleton.mp hw]
      rfl
  unended := fun hnone w hw => by
    rcases List.mem_append.mp hw with hw | hw
    · exact h.unended hopen w hw
    · rw [List.mem_singleton.mp hw, Write.ends, hended hnone]
      rfl
  endsLast := by
    rw [Live.patch, List.dropLast_concat]
    exact h.unended hopen
  served := h.served
  undeclared := h.undeclared
  declaredOnce := h.declaredOnce
  shown := fun hne => by
    have hsome := h.shown hne
    show (p.popupShownAt.getD l.row.popupShownAt).isSome = true
    cases hp : p.popupShownAt with
    | none => exact hsome
    | some o =>
      cases o with
      | none => exact absurd hp hshown
      | some at_ => rfl
  later := h.later
  fallback := h.fallback
  settled_le := h.settled_le
  landed_le := by
    rw [Live.patch, List.length_append]
    exact h.landed_le.trans (Nat.le_add_right _ _)

theorem Live.keeps_patch {l : Live} (h : l.Ok) (hopen : l.row.endedAt = none) {p : ExposurePatch}
    (hshown : p.popupShownAt ≠ some none) (hended : p.endedAt = none) : l.Keeps (l.patch p) where
  ok := h.patched hopen p hshown fun _ => hended
  id := rfl
  key := rfl
  endedAt := by
    show p.endedAt.getD l.row.endedAt = l.row.endedAt
    rw [hended]
    rfl
  landed := rfl
  settled := rfl
  writes := List.prefix_append _ _

/-- One more popup: of a declaration the first, of anything else the first at all. -/
theorem Live.Ok.popup {l : Live} (h : l.Ok) {e : Popup}
    (hshown : l.row.popupShownAt.isSome = true)
    (hdeclared : e.declared = true →
      l.declaredPopup = true ∧ ∀ e ∈ l.popups, e.declared = false)
    (hfallback : e.declared = false → l.popups = [] ∧ e.row.declaredAt = none) :
    Live.Ok { l with popups := l.popups ++ [e] } :=
  { h with
    undeclared := fun hd e' he' => by
      rcases List.mem_append.mp he' with he' | he'
      · exact h.undeclared hd e' he'
      · rw [List.mem_singleton.mp he', ← Bool.not_eq_true]
        intro hyes
        exact Bool.false_ne_true (hd.symm.trans (hdeclared hyes).1)
    declaredOnce := by
      rw [List.filter_append, List.length_append]
      cases hd : e.declared with
      | true =>
        have hnone : (l.popups.filter fun e => e.declared) = [] :=
          List.filter_eq_nil_iff.mpr fun e' he' => by simp [(hdeclared hd).2 e' he']
        simp [hnone, hd]
      | false => simpa [hd] using h.declaredOnce
    shown := fun _ => hshown
    later := fun e' he' => by
      rcases List.eq_nil_or_concat l.popups with hnil | ⟨es, e'', hes⟩
      · simp [hnil] at he'
      · rw [List.tail_append_of_ne_nil (by simp [hes])] at he'
        rcases List.mem_append.mp he' with he' | he'
        · exact h.later e' he'
        · rw [List.mem_singleton.mp he', ← Bool.not_eq_false]
          intro hno
          simp [(hfallback hno).1] at hes
    fallback := fun e' he' hno => by
      rcases List.mem_append.mp he' with he' | he'
      · exact h.fallback e' he' hno
      · rw [List.mem_singleton.mp he'] at hno ⊢
        exact (hfallback hno).2 }

theorem Live.keeps_showPopup {l : Live} (h : l.Ok) (hopen : l.row.endedAt = none) {declared : Bool}
    {now : ℤ} (hdeclared : declared = true → l.serving = true ∧ l.declaredPopup = false)
    (hfallback : declared = false → l.row.popupShownAt = none ∧ l.row.declaredAt = none) :
    l.Keeps (l.showPopup declared now) := by
  have hpopups : declared = false → l.popups = [] := fun hno => by
    by_contra hne
    have hsome := h.shown hne
    rw [(hfallback hno).1] at hsome
    cases hsome
  unfold Live.showPopup
  set l₁ : Live :=
    { l with declaredPopup := declared || l.declaredPopup, fallbackTimer := false }
  have h₁ : l.Keeps l₁ :=
    { Live.Keeps.refl h with
      ok := { h with
        served := fun hd => by
          cases declared with
          | true => exact (hdeclared rfl).1
          | false => exact h.served hd
        undeclared := fun hd => h.undeclared (by
          cases declared with
          | true => cases hd
          | false => exact hd) } }
  set l₂ : Live := if l₁.row.popupShownAt = none then
    l₁.patch { popupShownAt := some (some now) } else l₁ with hl₂
  have h₂ : l₁.Keeps l₂ ∧ l₂.row.popupShownAt.isSome = true ∧ l₂.popups = l.popups ∧
      l₂.row.declaredAt = l.row.declaredAt ∧ l₂.declaredPopup = l₁.declaredPopup := by
    rw [hl₂]
    split_ifs with hnone
    · exact ⟨Live.keeps_patch h₁.ok hopen (by simp) rfl, rfl, rfl, rfl, rfl⟩
    · exact ⟨.refl h₁.ok, Option.isSome_iff_ne_none.mpr hnone, rfl, rfl, rfl⟩
  obtain ⟨hkeeps, hshown, hsame, hdeclaredAt, hmark⟩ := h₂
  have h₃ : Live.Ok { l₂ with popups := l₂.popups ++ [⟨l₂.row, declared⟩] } := by
    refine hkeeps.ok.popup hshown (fun hd => ?_) (fun hno => ?_)
    · have hyes : declared = true := hd
      rw [hmark, hsame]
      exact ⟨by simp [l₁, hyes], h.undeclared (hdeclared hyes).2⟩
    · exact ⟨hsame.trans (hpopups hno), hdeclaredAt.trans (hfallback hno).2⟩
  exact (h₁.trans hkeeps).trans { Live.Keeps.refl hkeeps.ok with ok := h₃ }

/-! The operations on one exposure. -/

theorem Live.keeps_serve {l : Live} (h : l.Ok) :
    l.Keeps { l with serving := true, waitTimer := false } :=
  { Live.Keeps.refl h with ok := { h with served := fun _ => rfl } }

theorem Live.Ok.no_popup {l : Live} (h : l.Ok) (hserving : l.serving = false) :
    l.declaredPopup = false := by
  rw [← Bool.not_eq_true]
  intro hd
  exact Bool.false_ne_true (hserving.symm.trans (h.served hd))

theorem Live.keeps_redeclare {l : Live} (h : l.Ok) (hopen : l.row.endedAt = none) (d : Declaration)
    (now : ℤ) : l.Keeps (l.redeclare d now).1 := by
  unfold Live.redeclare
  dsimp only
  generalize hp : (if l.row.declaredAt = none then _ else _ : ExposurePatch) = p
  have hpatch : l.Keeps (l.patch p) := by
    apply Live.keeps_patch h hopen
    · rw [← hp]; split_ifs <;> simp
    · rw [← hp]; split_ifs <;> rfl
  split_ifs with hserving hpopup
  · exact hpatch
  · refine hpatch.trans (Live.keeps_showPopup hpatch.ok (hpatch.endedAt.trans hopen) ?_ nofun)
    exact fun _ => ⟨by simpa using hserving, by simpa using hpopup⟩
  · exact hpatch

theorem Live.keeps_served {l : Live} (h : l.Ok) (hopen : l.row.endedAt = none)
    (hserving : l.serving = false) {p : ExposurePatch} (hshown : p.popupShownAt = none)
    (hended : p.endedAt = none) (now : ℤ) :
    l.Keeps
      ((({ l with serving := true, waitTimer := false } : Live).patch p).showPopup true now) := by
  have hserve := Live.keeps_serve h
  have hpatch := Live.keeps_patch hserve.ok (hserve.endedAt.trans hopen) (p := p)
    (by simp [hshown]) hended
  refine (hserve.trans hpatch).trans
    (Live.keeps_showPopup hpatch.ok (hpatch.endedAt.trans (hserve.endedAt.trans hopen)) ?_ nofun)
  exact fun _ => ⟨rfl, h.no_popup hserving⟩

theorem Live.keeps_scan {l : Live} (h : l.Ok) (hopen : l.row.endedAt = none) (sp : ServingPort)
    (now : ℤ) : l.Keeps (l.scan sp now) := by
  unfold Live.scan
  split_ifs with hlocal hserving
  · exact .refl h
  · exact Live.keeps_served h hopen (by simpa using hserving) rfl rfl now
  · exact Live.keeps_patch h hopen (by simp) rfl
  · exact .refl h

theorem Live.keeps_probed {l : Live} (h : l.Ok) (hopen : l.row.endedAt = none) (ok : Bool)
    (now : ℤ) : l.Keeps (l.probed ok now) := by
  have hpolled : l.Keeps { l with localFails := 0, pollTimer := true } :=
    { Live.Keeps.refl h with ok := h }
  unfold Live.probed
  dsimp only
  split_ifs with hok hserving
  · exact hpolled.trans
      (Live.keeps_served hpolled.ok hopen (by simpa using hserving) rfl rfl now)
  all_goals exact { Live.Keeps.refl h with ok := h }

theorem Live.ok_finish {l : Live} (h : l.Ok) (hopen : l.row.endedAt = none) (now : ℤ) :
    (l.finish now).Ok := by
  have hstill : Live.Ok { l with waitTimer := false, fallbackTimer := false, pollTimer := false } :=
    h
  exact hstill.patched hopen _ (by simp) nofun

/-! What holds of the state. -/

section States
variable {newId : ℕ → Text} {s : State} {l : Live} {i : ℕ} {now : ℤ}

/-- The map holds the exposures that have not ended. -/
structure Mapped (newId : ℕ → Text) (lives : List Live) (live : JsMap Text ℕ) : Prop where
  ok : ∀ (i : ℕ) (l : Live), lives[i]? = some l → l.Ok ∧ l.row.id = newId i
  current : ∀ (k : Text) (i : ℕ), live.get? k = some i ↔
    ∃ l, lives[i]? = some l ∧ l.key = k ∧ l.row.endedAt = none

/-- The sink holds of each exposure what its landed writes make up. -/
structure Stored (newId : ℕ → Text) (lives : List Live) (sink : JsMap Text ExposureRow)
    (log : List (ℕ × Write)) : Prop where
  held : ∀ (i : ℕ) (l : Live), lives[i]? = some l →
    sink.get? (newId i) = rowAfter (l.writes.take l.landed)
  logged : ∀ (i : ℕ) (l : Live), lives[i]? = some l →
    (log.filter fun e => e.1 = i).map Prod.snd = l.writes.take l.landed
  fresh : ∀ i, lives.length ≤ i →
    sink.get? (newId i) = none ∧ (log.filter fun e => e.1 = i) = []

/-- The writes queued for the flushes are those of the exposures; those passed have settled. -/
structure Waited (lives : List Live) (allWrites : List Queued) (passed : ℕ) (awaiting : Option ℕ)
    (flushes : List Flush) : Prop where
  queued : ∀ q ∈ allWrites, ∃ l, lives[q.exposure]? = some l ∧ q.write ≤ l.writes.length
  complete : ∀ (i : ℕ) (l : Live), lives[i]? = some l → ⟨i, l.writes.length⟩ ∈ allWrites
  bound : passed ≤ allWrites.length
  settled : ∀ (k : ℕ) (q : Queued), k < passed → allWrites[k]? = some q →
    ∀ l, lives[q.exposure]? = some l → q.write ≤ l.settled
  reached : ∀ n, awaiting = some n → ∃ q, allWrites[passed]? = some q ∧ q.write ≤ n
  flushed : ∀ f ∈ flushes, ∀ (i n : ℕ), f.writes[i]? = some n →
    ∃ (k : ℕ), k < f.upTo ∧ allWrites[k]? = some ⟨i, n⟩

structure Sound (newId : ℕ → Text) (s : State) : Prop where
  mapped : Mapped newId s.lives s.live
  stored : Stored newId s.lives s.sink s.log
  waited : Waited s.lives s.allWrites s.passed s.awaiting s.flushes

theorem update_of_some (hl : s.lives[i]? = some l) (f : Live → Live) :
    s.update i f = { s with
      lives := s.lives.set i (f l)
      allWrites := s.allWrites ++
        (List.range' (l.writes.length + 1)
          ((f l).writes.length - l.writes.length)).map (⟨i, ·⟩) } := by
  simp only [State.update, hl]

theorem take_of_prefix {α : Type*} {as bs : List α} {n : ℕ} (h : as <+: bs) (hn : n ≤ as.length) :
    bs.take n = as.take n := by
  obtain ⟨cs, rfl⟩ := h
  exact List.take_append_of_le_length hn

theorem Stored.set {sink : JsMap Text ExposureRow} {log : List (ℕ × Write)} {lives : List Live}
    {l' : Live} (h : Stored newId lives sink log) (hok : l.Ok) (hl : lives[i]? = some l)
    (hlanded : l'.landed = l.landed) (hwrites : l.writes <+: l'.writes) :
    Stored newId (lives.set i l') sink log where
  held := fun j m hm => by
    rcases getElem?_set_cases hm with ⟨rfl, rfl⟩ | ⟨-, hold⟩
    · rw [h.held i l hl, hlanded, take_of_prefix hwrites hok.landed_le]
    · exact h.held j m hold
  logged := fun j m hm => by
    rcases getElem?_set_cases hm with ⟨rfl, rfl⟩ | ⟨-, hold⟩
    · rw [h.logged i l hl, hlanded, take_of_prefix hwrites hok.landed_le]
    · exact h.logged j m hold
  fresh := fun j hj => h.fresh j (by rwa [List.length_set] at hj)

theorem Waited.set {lives : List Live} {l' : Live} {allWrites : List Queued} {passed : ℕ}
    {awaiting : Option ℕ} {flushes : List Flush}
    (h : Waited lives allWrites passed awaiting flushes) (hl : lives[i]? = some l)
    (hwrites : l.writes <+: l'.writes) (hsettled : l.settled ≤ l'.settled) :
    Waited (lives.set i l')
      (allWrites ++ (List.range' (l.writes.length + 1)
        (l'.writes.length - l.writes.length)).map (⟨i, ·⟩))
      passed awaiting flushes where
  queued := fun q hq => by
    rcases List.mem_append.mp hq with hq | hq
    · obtain ⟨m, hm, hle⟩ := h.queued q hq
      by_cases hi : i = q.exposure
      · subst hi
        cases hl.symm.trans hm
        exact ⟨l', getElem?_set_of_some hl l', hle.trans hwrites.length_le⟩
      · exact ⟨m, by rwa [List.getElem?_set_ne hi], hle⟩
    · obtain ⟨n, hn, rfl⟩ := List.mem_map.mp hq
      have hlen := hwrites.length_le
      rw [List.mem_range'_1] at hn
      exact ⟨l', getElem?_set_of_some hl l', by show n ≤ _; omega⟩
  complete := fun j m hm => by
    rcases getElem?_set_cases hm with ⟨rfl, rfl⟩ | ⟨-, hold⟩
    · rcases hwrites.length_le.eq_or_lt with hsame | hlt
      · exact List.mem_append_left _ (hsame ▸ h.complete i l hl)
      · refine List.mem_append_right _ (List.mem_map_of_mem ?_)
        rw [List.mem_range'_1]
        omega
    · exact List.mem_append_left _ (h.complete j m hold)
  bound := h.bound.trans (by simp)
  settled := fun k q hk hq m hm => by
    rw [List.getElem?_append_left (hk.trans_le h.bound)] at hq
    rcases getElem?_set_cases hm with ⟨hi, rfl⟩ | ⟨-, hold⟩
    · exact (h.settled k q hk hq l (hi ▸ hl)).trans hsettled
    · exact h.settled k q hk hq m hold
  reached := fun n hn => by
    obtain ⟨q, hq, hle⟩ := h.reached n hn
    exact ⟨q, getElem?_append_of_some hq _, hle⟩
  flushed := fun f hf j n hn => by
    obtain ⟨k, hk, hq⟩ := h.flushed f hf j n hn
    exact ⟨k, hk, getElem?_append_of_some hq _⟩

theorem Mapped.set {lives : List Live} {live : JsMap Text ℕ} {l' : Live}
    (h : Mapped newId lives live) (hl : lives[i]? = some l) (hok : l'.Ok)
    (hid : l'.row.id = l.row.id) (hkey : l'.key = l.key) (hended : l'.row.endedAt = l.row.endedAt) :
    Mapped newId (lives.set i l') live where
  ok := fun j m hm => by
    rcases getElem?_set_cases hm with ⟨rfl, rfl⟩ | ⟨-, hold⟩
    · exact ⟨hok, hid.trans (h.ok i l hl).2⟩
    · exact h.ok j m hold
  current := fun k j => by
    rw [h.current]
    by_cases hi : i = j
    · subst hi
      simp [hl, getElem?_set_of_some hl, hkey, hended]
    · rw [List.getElem?_set_ne hi]

theorem Sound.update (h : Sound newId s) {f : Live → Live} (hl : s.lives[i]? = some l)
    (hk : l.Keeps (f l)) : Sound newId (s.update i f) := by
  rw [update_of_some hl]
  exact ⟨h.mapped.set hl hk.ok hk.id hk.key hk.endedAt,
    h.stored.set (h.mapped.ok i l hl).1 hl hk.landed hk.writes,
    h.waited.set hl hk.writes hk.settled.ge⟩

theorem Sound.finish (h : Sound newId s) {l₀ : Live} (hl : s.lives[i]? = some l)
    (hkey : l₀.key = l.key) (hopen : l.row.endedAt = none) : Sound newId (s.finish i l₀ now) := by
  have hok := (h.mapped.ok i l hl).1
  have hwrites : l.writes <+: (l.finish now).writes := List.prefix_append _ _
  unfold State.finish
  rw [hkey, update_of_some (s := { s with live := s.live.delete l.key }) hl]
  refine ⟨?_, h.stored.set hok hl rfl hwrites, h.waited.set hl hwrites le_rfl⟩
  exact
    { ok := fun j m hm => by
        rcases getElem?_set_cases hm with ⟨rfl, rfl⟩ | ⟨-, hold⟩
        · exact ⟨Live.ok_finish hok hopen now, (h.mapped.ok i l hl).2⟩
        · exact h.mapped.ok j m hold
      current := fun k j => by
        have hmap := (h.mapped.current l.key i).mpr ⟨l, hl, rfl, hopen⟩
        rw [JsMap.get?_delete]
        by_cases hi : i = j
        · subst hi
          rw [getElem?_set_of_some hl]
          refine iff_of_false (fun hk => ?_) ?_
          · split_ifs at hk with hkey
            obtain ⟨m, hm, rfl, -⟩ := (h.mapped.current k i).mp hk
            cases hl.symm.trans hm
            exact hkey rfl
          · rintro ⟨m, hm, -, hend⟩
            cases hm
            cases hend
        · rw [List.getElem?_set_ne hi]
          split_ifs with hkey
          · subst hkey
            refine iff_of_false nofun fun hm => hi ?_
            exact Option.some.inj (hmap.symm.trans ((h.mapped.current l.key j).mpr hm))
          · exact h.mapped.current k j }

/-- An exposure that has just been opened. -/
structure Live.Fresh (l : Live) : Prop where
  writes : l.writes = [.insert l.row]
  landed : l.landed = 0
  settled : l.settled = 0
  popups : l.popups = []
  declaredPopup : l.declaredPopup = false
  endedAt : l.row.endedAt = none

theorem Live.Fresh.ok (h : l.Fresh) : l.Ok where
  made := by rw [h.writes]; rfl
  insertFirst := ⟨l.row, [], h.writes, by simp⟩
  ids := by simp [h.writes, Write.id]
  unended := by simp [h.writes, Write.ends]
  endsLast := by simp [h.writes]
  served := by simp [h.declaredPopup]
  undeclared := by simp [h.popups]
  declaredOnce := by simp [h.popups]
  shown := by simp [h.popups]
  later := by simp [h.popups]
  fallback := by simp [h.popups]
  settled_le := by rw [h.settled, h.landed]
  landed_le := by rw [h.landed]; exact Nat.zero_le _

theorem Sound.add (h : Sound newId s) (hfresh : l.Fresh) (hid : l.row.id = newId s.lives.length)
    (hkey : s.live.get? l.key = none) : Sound newId (s.add l) where
  mapped :=
    { ok := fun j m hm => by
        rcases getElem?_concat_cases hm with hold | ⟨rfl, rfl⟩
        · exact h.mapped.ok j m hold
        · exact ⟨hfresh.ok, hid⟩
      current := fun k j => by
        show (s.live.set l.key s.lives.length).get? k = some j ↔ _
        rw [JsMap.get?_set]
        constructor
        · intro hk
          split_ifs at hk with hsame
          · cases hk
            exact ⟨l, List.getElem?_concat_length, hsame.symm, hfresh.endedAt⟩
          · obtain ⟨m, hm, hrest⟩ := (h.mapped.current k j).mp hk
            exact ⟨m, getElem?_append_of_some hm [l], hrest⟩
        · rintro ⟨m, hm, rfl, hopen⟩
          rcases getElem?_concat_cases hm with hold | ⟨rfl, rfl⟩
          · have hk := (h.mapped.current m.key j).mpr ⟨m, hold, rfl, hopen⟩
            rw [if_neg, hk]
            intro hsame
            rw [hsame, hkey] at hk
            cases hk
          · rw [if_pos rfl] }
  stored :=
    { held := fun j m hm => by
        rcases getElem?_concat_cases hm with hold | ⟨rfl, rfl⟩
        · exact h.stored.held j m hold
        · rw [hfresh.landed]
          exact (h.stored.fresh _ le_rfl).1
      logged := fun j m hm => by
        rcases getElem?_concat_cases hm with hold | ⟨rfl, rfl⟩
        · exact h.stored.logged j m hold
        · rw [hfresh.landed]
          show (s.log.filter _).map _ = _
          rw [(h.stored.fresh _ le_rfl).2]
          rfl
      fresh := fun j hj => h.stored.fresh j (by
        have hlen : (s.lives ++ [l]).length ≤ j := hj
        rw [List.length_append] at hlen
        omega) }
  waited :=
    { queued := fun q hq => by
        rcases List.mem_append.mp hq with hq | hq
        · obtain ⟨m, hm, hle⟩ := h.waited.queued q hq
          exact ⟨m, getElem?_append_of_some hm [l], hle⟩
        · rw [List.mem_singleton.mp hq]
          exact ⟨l, List.getElem?_concat_length, by simp [hfresh.writes]⟩
      complete := fun j m hm => by
        rcases getElem?_concat_cases hm with hold | ⟨rfl, rfl⟩
        · exact List.mem_append_left _ (h.waited.complete j m hold)
        · exact List.mem_append_right _ (by simp [hfresh.writes])
      bound := h.waited.bound.trans (by simp [State.add])
      settled := fun k q hk hq m hm => by
        have hq' : (s.allWrites ++ [⟨s.lives.length, 1⟩])[k]? = some q := hq
        rw [List.getElem?_append_left (hk.trans_le h.waited.bound)] at hq'
        obtain ⟨m', hm', -⟩ := h.waited.queued q (List.mem_of_getElem? hq')
        cases hm.symm.trans (getElem?_append_of_some hm' [l])
        exact h.waited.settled k q hk hq' m hm'
      reached := fun n hn => by
        obtain ⟨q, hq, hle⟩ := h.waited.reached n hn
        exact ⟨q, getElem?_append_of_some hq _, hle⟩
      flushed := fun f hf j n hn => by
        obtain ⟨k, hk, hq⟩ := h.waited.flushed f hf j n hn
        exact ⟨k, hk, getElem?_append_of_some hq _⟩ }

theorem Sound.live_at (h : Sound newId s) {k : Text} (hk : s.live.get? k = some i) :
    ∃ l, s.lives[i]? = some l ∧ l.key = k ∧ l.row.endedAt = none :=
  (h.mapped.current k i).mp hk

/-- A change of the exposure that the map has for a port. -/
theorem Sound.update_current (h : Sound newId s) {k : Text} (hk : s.live.get? k = some i)
    {f : Live → Live} (hf : ∀ l : Live, l.Ok → l.row.endedAt = none → l.Keeps (f l)) :
    Sound newId (s.update i f) := by
  obtain ⟨l, hl, -, hopen⟩ := h.live_at hk
  exact h.update hl (hf l (h.mapped.ok i l hl).1 hopen)

theorem Sound.declared (h : Sound newId s) (c : Call) (workspace : Option (WorkspaceKind × Bool))
    (now : ℤ) : Sound newId (declared newId s c workspace now).1 := by
  unfold PortExposure.declared
  cases workspace with
  | none => exact h
  | some found =>
    obtain ⟨kind, running⟩ := found
    dsimp only
    split_ifs
    · exact h
    · exact h
    · cases hk : s.live.get? (keyOf c.workspaceId c.declaration.port) with
      | some i => exact h.update_current hk fun l hl hopen => Live.keeps_redeclare hl hopen _ now
      | none => exact h.add ⟨rfl, rfl, rfl, rfl, rfl, rfl⟩ rfl hk

theorem Sound.scanPort (h : Sound newId s) (workspaceId : Text) (sp : ServingPort) :
    Sound newId (scanPort newId workspaceId now s sp) := by
  unfold PortExposure.scanPort
  split_ifs
  · exact h
  · cases hk : s.live.get? (keyOf workspaceId sp.port) with
    | some i => exact h.update_current hk fun l hl hopen => Live.keeps_scan hl hopen sp now
    | none => exact h.add ⟨rfl, rfl, rfl, rfl, rfl, rfl⟩ rfl hk

theorem finish_live (s : State) (i : ℕ) (l : Live) (now : ℤ) :
    (s.finish i l now).live = s.live.delete l.key := by
  unfold State.finish State.update
  cases s.lives[i]? <;> rfl

/-- The exposures that the map had when the absent ones began to end are still in it until their
turn comes. -/
theorem Sound.endAbsents (h : Sound newId s) (workspaceId : Text) (present : List ℕ)
    {rows : List (Text × ℕ)} (hrows : (rows.map Prod.fst).Nodup)
    (hlive : ∀ e ∈ rows, s.live.get? e.1 = some e.2) :
    Sound newId ((rows.map Prod.snd).foldl (endAbsent workspaceId present now) s) := by
  induction rows generalizing s with
  | nil => exact h
  | cons e rows ih =>
    obtain ⟨hnot, hrest⟩ := List.nodup_cons.mp hrows
    obtain ⟨hfirst, hlater⟩ := List.forall_mem_cons.mp hlive
    obtain ⟨l, hl, hkey, hopen⟩ := h.live_at hfirst
    rw [List.map_cons, List.foldl_cons]
    unfold endAbsent
    simp only [hl]
    split_ifs
    · refine ih (h.finish hl rfl hopen) hrest fun e' he' => ?_
      rw [finish_live, JsMap.get?_delete_of_ne]
      · exact hlater e' he'
      · rw [hkey]
        exact fun hsame => hnot (hsame ▸ List.mem_map_of_mem he')
    · exact ih h hrest hlater

theorem Sound.onSnapshot (h : Sound newId s) (workspaceId : Text) (ports : List ServingPort) :
    Sound newId (onSnapshot newId s workspaceId ports now) := by
  have hscan : ∀ (ports : List ServingPort) (s : State), Sound newId s →
      Sound newId (ports.foldl (PortExposure.scanPort newId workspaceId now) s) := by
    intro ports
    induction ports with
    | nil => exact fun s h => h
    | cons sp ports ih => exact fun s h => ih _ (h.scanPort workspaceId sp)
  have hafter := hscan ports s h
  refine hafter.endAbsents workspaceId _ (Table.nodup _) fun e he => ?_
  exact JsMap.get?_eq_some.mpr he

theorem isCurrent_iff : s.isCurrent i l = true ↔ s.live.get? l.key = some i := beq_iff_eq

theorem update_live (s : State) (i : ℕ) (f : Live → Live) : (s.update i f).live = s.live := by
  unfold State.update
  cases s.lives[i]? <;> rfl

theorem Sound.open_of_current (h : Sound newId s) (hl : s.lives[i]? = some l)
    (hcur : s.live.get? l.key = some i) : l.row.endedAt = none := by
  obtain ⟨m, hm, -, hopen⟩ := h.live_at hcur
  cases hl.symm.trans hm
  exact hopen

theorem Sound.onWait (h : Sound newId s) (hl : s.lives[i]? = some l) :
    Sound newId (onWait s i l now) := by
  have hok := (h.mapped.ok i l hl).1
  have hkeeps : l.Keeps { l with waitTimer := false } := { Live.Keeps.refl hok with ok := hok }
  have hset : Sound newId (s.update i fun l => { l with waitTimer := false }) := h.update hl hkeeps
  unfold PortExposure.onWait
  dsimp only
  split_ifs with hend
  · obtain ⟨-, hcur⟩ := Bool.and_eq_true_iff.mp hend
    rw [isCurrent_iff, update_live] at hcur
    have hopen := h.open_of_current hl hcur
    refine hset.finish (l := { l with waitTimer := false }) ?_ rfl hopen
    rw [update_of_some hl]
    exact getElem?_set_of_some hl _
  · exact hset

theorem Sound.scheduleFallback (h : Sound newId s) (hl : s.lives[i]? = some l) (sec : ℤ) :
    Sound newId (scheduleFallback s i l sec) := by
  have hok := (h.mapped.ok i l hl).1
  exact h.update hl { Live.Keeps.refl hok with ok := hok }

theorem Sound.onFallback (h : Sound newId s) (hl : s.lives[i]? = some l) :
    Sound newId (onFallback s i l now) := by
  have hok := (h.mapped.ok i l hl).1
  have hkeeps : l.Keeps { l with fallbackTimer := false } := { Live.Keeps.refl hok with ok := hok }
  refine h.update hl ?_
  dsimp only
  split_ifs with hshow
  · simp only [Bool.and_eq_true, Option.isNone_iff_eq_none, isCurrent_iff] at hshow
    have hopen := h.open_of_current hl hshow.1.1
    refine hkeeps.trans (Live.keeps_showPopup hkeeps.ok hopen (by simp) ?_)
    exact fun _ => ⟨hshow.2, hshow.1.2⟩
  · exact hkeeps

theorem Sound.onProbe (h : Sound newId s) (hl : s.lives[i]? = some l) (ok : Bool) :
    Sound newId (onProbe s i l ok now) := by
  have hok := (h.mapped.ok i l hl).1
  unfold PortExposure.onProbe
  split_ifs with hcur hend
  · exact h.update hl { Live.Keeps.refl hok with ok := hok }
  · have hcur' : s.live.get? l.key = some i := isCurrent_iff.mp (by simpa using hcur)
    have hset := h.update hl
      (f := fun l => { l with probing := false, localFails := l.localFails + 1 })
      { Live.Keeps.refl hok with ok := hok }
    have hopen := h.open_of_current hl hcur'
    refine hset.finish (l := { l with probing := false, localFails := l.localFails + 1 }) ?_ rfl
      hopen
    rw [update_of_some hl]
    exact getElem?_set_of_some hl _
  · have hcur' : s.live.get? l.key = some i := isCurrent_iff.mp (by simpa using hcur)
    have hkeeps : l.Keeps { l with probing := false } := { Live.Keeps.refl hok with ok := hok }
    have hopen := h.open_of_current hl hcur'
    exact h.update hl (hkeeps.trans (Live.keeps_probed hkeeps.ok hopen ok now))

/-- The next write of an exposure reaches the sink. -/
theorem Sound.land (hinj : Function.Injective newId) (h : Sound newId s) {w : Write}
    (hl : s.lives[i]? = some l) (hw : l.writes[l.settled]? = some w)
    (hnext : l.landed = l.settled) :
    Sound newId { s with
      lives := s.lives.set i { l with landed := l.landed + 1 }
      sink := w.apply s.sink
      log := s.log ++ [(i, w)] } := by
  obtain ⟨hok, hid⟩ := h.mapped.ok i l hl
  have hw' : l.writes[l.landed]? = some w := hnext ▸ hw
  have hlt : l.landed < l.writes.length := (List.getElem?_eq_some_iff.mp hw').1
  have hwid : w.id = newId i := (hok.ids w (List.mem_of_getElem? hw')).trans hid
  have htake : l.writes.take (l.landed + 1) = l.writes.take l.landed ++ [w] := by
    rw [List.take_add_one, hw']
    rfl
  have hothers : ∀ j, i ≠ j → (w.apply s.sink).get? (newId j) = s.sink.get? (newId j) := by
    intro j hj
    apply Write.get?_apply_of_ne
    rw [hwid]
    exact fun hsame => hj (hinj hsame).symm
  have hlog : ∀ j, i ≠ j →
      ((s.log ++ [(i, w)]).filter fun e => e.1 = j) = s.log.filter fun e => e.1 = j := by
    intro j hj
    simp [hj]
  have hlanded : Live.Ok { l with landed := l.landed + 1 } :=
    { hok with settled_le := hok.settled_le.trans (Nat.le_succ _), landed_le := hlt }
  have hsame : l.writes <+: ({ l with landed := l.landed + 1 } : Live).writes :=
    List.prefix_refl _
  have hwaited := h.waited.set hl hsame le_rfl
  refine ⟨h.mapped.set hl hlanded rfl rfl rfl,
    ⟨fun j m hm => ?_, fun j m hm => ?_, fun j hj => ?_⟩, by simpa using hwaited⟩
  · rcases getElem?_set_cases hm with ⟨rfl, rfl⟩ | ⟨hj, hold⟩
    · show (w.apply s.sink).get? (newId i) = rowAfter (l.writes.take (l.landed + 1))
      rw [htake, rowAfter_append, ← h.stored.held i l hl, ← hwid, Write.get?_apply_self]
    · rw [hothers j hj]
      exact h.stored.held j m hold
  · rcases getElem?_set_cases hm with ⟨rfl, rfl⟩ | ⟨hj, hold⟩
    · show _ = l.writes.take (l.landed + 1)
      rw [htake, ← h.stored.logged i l hl]
      simp
    · rw [hlog j hj]
      exact h.stored.logged j m hold
  · rw [List.length_set] at hj
    have hne : i ≠ j := by
      have := (List.getElem?_eq_some_iff.mp hl).1
      omega
    rw [hothers j hne, hlog j hne]
    exact h.stored.fresh j hj

theorem Sound.settle (h : Sound newId s) (hl : s.lives[i]? = some l)
    (hnext : l.landed = l.settled + 1) :
    Sound newId { s with lives := s.lives.set i { l with settled := l.settled + 1 } } := by
  have hok := (h.mapped.ok i l hl).1
  have hsame : l.writes <+: ({ l with settled := l.settled + 1 } : Live).writes :=
    List.prefix_refl _
  have hwaited := h.waited.set hl hsame (Nat.le_succ _)
  exact ⟨h.mapped.set hl { hok with settled_le := hnext.ge } rfl rfl rfl,
    h.stored.set hok hl rfl (List.prefix_refl _), by simpa using hwaited⟩

theorem Sound.turn (h : Sound newId s) {q : Queued} (hq : s.allWrites[s.passed]? = some q)
    (hl : s.lives[q.exposure]? = some l) :
    Sound newId { s with awaiting := some l.writes.length } := by
  refine ⟨h.mapped, h.stored, { h.waited with reached := fun n hn => ⟨q, hq, ?_⟩ }⟩
  obtain ⟨m, hm, hle⟩ := h.waited.queued q (List.mem_of_getElem? hq)
  cases hl.symm.trans hm
  cases hn
  exact hle

theorem Sound.pass (h : Sound newId s) {q : Queued} {n : ℕ} (hq : s.allWrites[s.passed]? = some q)
    (hl : s.lives[q.exposure]? = some l) (hn : s.awaiting = some n) (hle : n ≤ l.settled) :
    Sound newId { s with passed := s.passed + 1, awaiting := none } := by
  refine ⟨h.mapped, h.stored, { h.waited with
    bound := (List.getElem?_eq_some_iff.mp hq).1
    settled := fun k q' hk hq' m hm => ?_
    reached := nofun }⟩
  rcases Nat.lt_succ_iff_lt_or_eq.mp hk with hk | rfl
  · exact h.waited.settled k q' hk hq' m hm
  · obtain ⟨q'', hq'', hwrite⟩ := h.waited.reached n hn
    cases hq.symm.trans hq'
    cases hq.symm.trans hq''
    cases hl.symm.trans hm
    exact hwrite.trans hle

theorem Sound.flush (h : Sound newId s) :
    Sound newId { s with
      flushes := s.flushes ++ [⟨s.allWrites.length, s.lives.map fun l => l.writes.length⟩] } := by
  refine ⟨h.mapped, h.stored, { h.waited with flushed := fun f hf i n hn => ?_ }⟩
  rcases List.mem_append.mp hf with hf | hf
  · exact h.waited.flushed f hf i n hn
  · rw [List.mem_singleton.mp hf] at hn ⊢
    rw [List.getElem?_map] at hn
    obtain ⟨l, hl, rfl⟩ := Option.map_eq_some_iff.mp hn
    obtain ⟨k, hk⟩ := List.mem_iff_getElem?.mp (h.waited.complete i l hl)
    exact ⟨k, (List.getElem?_eq_some_iff.mp hk).1, hk⟩

theorem Sound.initial : Sound newId {} where
  mapped :=
    { ok := fun i l hl => absurd hl (by simp)
      current := fun k i => by simp }
  stored :=
    { held := fun i l hl => absurd hl (by simp)
      logged := fun i l hl => absurd hl (by simp)
      fresh := fun i _ => ⟨JsMap.get?_empty _, List.filter_nil⟩ }
  waited :=
    { queued := fun q hq => absurd hq List.not_mem_nil
      complete := fun i l hl => absurd hl (by simp)
      bound := le_rfl
      settled := fun k q hk => absurd hk (Nat.not_lt_zero k)
      reached := fun n hn => absurd hn (by simp)
      flushed := fun f hf => absurd hf List.not_mem_nil }

theorem some_of_guard {α : Type*} {p : Prop} [Decidable p] {a b : α}
    (h : (if p then some a else none) = some b) : p ∧ a = b := by
  simpa using Option.ite_none_right_eq_some.mp h

theorem Sound.step (hinj : Function.Injective newId) (h : Sound newId s) {t : State} {a : Action}
    (hs : step newId s a = some t) : Sound newId t := by
  cases a with
  | declare workspaceId args now =>
    cases hs
    unfold State.declare State.takeRate
    cases parseDeclare args with
    | error e => exact h
    | ok declaration =>
      dsimp only
      split_ifs <;> exact ⟨h.mapped, h.stored, h.waited⟩
  | workspace n found now =>
    obtain ⟨c, -, rfl⟩ := Option.map_eq_some_iff.mp hs
    have hcall : Sound newId { s with calls := s.calls.eraseIdx n } :=
      ⟨h.mapped, h.stored, h.waited⟩
    cases found with
    | none => exact hcall
    | some workspace => exact hcall.declared c workspace now
  | onSnapshot workspaceId ports now =>
    cases hs
    exact h.onSnapshot workspaceId ports
  | recordOpen workspaceId port via =>
    cases hs
    unfold PortExposure.recordOpen
    cases hk : s.live.get? (keyOf workspaceId port) with
    | none => exact h
    | some i => exact h.update_current hk fun l hl hopen => Live.keeps_patch hl hopen nofun rfl
  | recordDismiss workspaceId port =>
    cases hs
    unfold PortExposure.recordDismiss
    cases hk : s.live.get? (keyOf workspaceId port) with
    | none => exact h
    | some i =>
      refine h.update_current hk fun l hl hopen => ?_
      split_ifs
      · exact Live.keeps_patch hl hopen nofun rfl
      · exact .refl hl
  | wait i now =>
    obtain ⟨l, hl, ht⟩ := Option.bind_eq_some_iff.mp hs
    obtain ⟨-, rfl⟩ := some_of_guard ht
    exact h.onWait hl
  | setting i sec =>
    obtain ⟨l, hl, ht⟩ := Option.bind_eq_some_iff.mp hs
    obtain ⟨-, rfl⟩ := some_of_guard ht
    exact h.scheduleFallback hl sec
  | fallback i now =>
    obtain ⟨l, hl, ht⟩ := Option.bind_eq_some_iff.mp hs
    obtain ⟨-, rfl⟩ := some_of_guard ht
    exact h.onFallback hl
  | poll i =>
    obtain ⟨l, hl, ht⟩ := Option.bind_eq_some_iff.mp hs
    obtain ⟨-, rfl⟩ := some_of_guard ht
    have hok := (h.mapped.ok i l hl).1
    exact h.update hl { Live.Keeps.refl hok with ok := hok }
  | probed i ok now =>
    obtain ⟨l, hl, ht⟩ := Option.bind_eq_some_iff.mp hs
    obtain ⟨-, rfl⟩ := some_of_guard ht
    exact h.onProbe hl ok
  | land i =>
    obtain ⟨l, hl, hs⟩ := Option.bind_eq_some_iff.mp hs
    obtain ⟨w, hw, hs⟩ := Option.bind_eq_some_iff.mp hs
    obtain ⟨hnext, rfl⟩ := some_of_guard hs
    exact h.land hinj hl hw hnext
  | settle i =>
    obtain ⟨l, hl, hs⟩ := Option.bind_eq_some_iff.mp hs
    obtain ⟨hnext, rfl⟩ := some_of_guard hs
    exact h.settle hl hnext
  | turn =>
    obtain ⟨q, hq, hs⟩ := Option.bind_eq_some_iff.mp hs
    obtain ⟨-, hs⟩ := Option.ite_none_right_eq_some.mp hs
    obtain ⟨l, hl, rfl⟩ := Option.map_eq_some_iff.mp hs
    exact h.turn hq hl
  | pass =>
    obtain ⟨q, hq, hs⟩ := Option.bind_eq_some_iff.mp hs
    obtain ⟨l, hl, hs⟩ := Option.bind_eq_some_iff.mp hs
    obtain ⟨n, hn, hs⟩ := Option.bind_eq_some_iff.mp hs
    obtain ⟨hle, rfl⟩ := some_of_guard hs
    exact h.pass hq hl hn hle
  | flush =>
    cases hs
    exact h.flush

/-- A row that has ended was ended by a write. -/
theorem ends_of_ended {writes : List Write} {row : ExposureRow}
    (hall : ∀ w ∈ writes, w.ends = false) (hrow : rowAfter writes = some row) :
    row.endedAt = none := by
  induction writes using List.reverseRecOn generalizing row with
  | nil => cases hrow
  | append_singleton writes w ih =>
    have hlast : w.ends = false := hall w (by simp)
    rw [rowAfter_append] at hrow
    cases w with
    | insert row' =>
      cases hrow
      simpa [Write.ends] using hlast
    | update id p =>
      obtain ⟨row', hrow', rfl⟩ := Option.map_eq_some_iff.mp hrow
      have hbefore := ih (fun w hw => hall w (List.mem_append_left _ hw)) hrow'
      have hp : p.endedAt = none := by simpa [Write.ends] using hlast
      show p.endedAt.getD row'.endedAt = none
      rw [hp]
      exact hbefore

/-- What is promised of the exposures, of what was shown for them and of what is stored. -/
structure Accounted (s : State) : Prop where
  unique : ∀ (i j : ℕ) (l m : Live), s.lives[i]? = some l → s.lives[j]? = some m →
    l.row.endedAt = none → m.row.endedAt = none →
    l.row.workspaceId = m.row.workspaceId → l.row.port = m.row.port → i = j
  endedBy : ∀ l ∈ s.lives, l.row.endedAt.isSome = true ↔ ∃ w ∈ l.writes, w.ends = true
  endsLast : ∀ l ∈ s.lives, ∀ w ∈ l.writes.dropLast, w.ends = false
  declaredOnce : ∀ l ∈ s.lives, (l.popups.filter fun e => e.declared).length ≤ 1
  fallbackFirst : ∀ l ∈ s.lives, ∀ before e after, l.popups = before ++ e :: after →
    e.declared = false → before = [] ∧ e.row.declaredAt = none
  insertFirst : ∀ l ∈ s.lives, ∃ row ups, l.writes = .insert row :: ups ∧
    ∀ w ∈ ups, ∃ p, w = .update row.id p
  inOrder : ∀ (i : ℕ) (l : Live), s.lives[i]? = some l →
    (s.log.filter fun e => e.1 = i).map Prod.snd = l.writes.take l.landed
  flushed : ∀ f ∈ s.flushes, f.upTo ≤ s.passed → ∀ (i n : ℕ) (l : Live),
    f.writes[i]? = some n → s.lives[i]? = some l →
      n ≤ l.landed ∧ s.sink.get? l.row.id = rowAfter (l.writes.take l.landed) ∧
        (l.writes.length = n → s.sink.get? l.row.id = some l.row)

theorem Sound.accounted (h : Sound newId s) : Accounted s where
  unique := fun i j l m hl hm hlo hmo hws hport => by
    have hkey : l.key = m.key := by rw [Live.key, Live.key, hws, hport]
    have hi := (h.mapped.current l.key i).mpr ⟨l, hl, rfl, hlo⟩
    have hj := (h.mapped.current l.key j).mpr ⟨m, hm, hkey.symm, hmo⟩
    exact Option.some.inj (hi.symm.trans hj)
  endedBy := fun l hl => by
    obtain ⟨i, hi⟩ := List.mem_iff_getElem?.mp hl
    have hok := (h.mapped.ok i l hi).1
    rw [← not_iff_not]
    simp only [Bool.not_eq_true, Option.isSome_eq_false_iff, Option.isNone_iff_eq_none, not_exists,
      not_and]
    exact ⟨hok.unended, fun hall => ends_of_ended hall hok.made⟩
  endsLast := fun l hl => by
    obtain ⟨i, hi⟩ := List.mem_iff_getElem?.mp hl
    exact (h.mapped.ok i l hi).1.endsLast
  declaredOnce := fun l hl => by
    obtain ⟨i, hi⟩ := List.mem_iff_getElem?.mp hl
    exact (h.mapped.ok i l hi).1.declaredOnce
  fallbackFirst := fun l hl before e after hsplit hno => by
    obtain ⟨i, hi⟩ := List.mem_iff_getElem?.mp hl
    have hok := (h.mapped.ok i l hi).1
    refine ⟨?_, hok.fallback e (by simp [hsplit]) hno⟩
    cases before with
    | nil => rfl
    | cons e' before =>
      have hyes := hok.later e (by simp [hsplit])
      exact absurd (hno.symm.trans hyes) Bool.false_ne_true
  insertFirst := fun l hl => by
    obtain ⟨i, hi⟩ := List.mem_iff_getElem?.mp hl
    exact (h.mapped.ok i l hi).1.insertFirst
  inOrder := h.stored.logged
  flushed := fun f hf hpassed i n l hn hl => by
    obtain ⟨hok, hid⟩ := h.mapped.ok i l hl
    obtain ⟨k, hk, hq⟩ := h.waited.flushed f hf i n hn
    have hsettled : n ≤ l.settled :=
      h.waited.settled k ⟨i, n⟩ (hk.trans_le hpassed) hq l hl
    have hlanded := hsettled.trans hok.settled_le
    have hheld := h.stored.held i l hl
    rw [hid]
    refine ⟨hlanded, hheld, fun hlen => ?_⟩
    rw [hheld, List.take_of_length_le (hlen ▸ hlanded), hok.made]

end States

/-- After any steps, each port has at most one exposure that has not ended, nothing is written of an
exposure after its end, a declaration shows one popup and the fallback only a first one, and a flush
has brought to the sink what was written before it: the exposure's row if nothing was since. -/
theorem exposures_accounted {newId : ℕ → Text} (hinj : Function.Injective newId) {s : State}
    {as : List Action} (hr : run (step newId) {} as = some s) : Accounted s := by
  have hsound : Sound newId s :=
    run_invariant (I := Sound newId) (fun s a t h hs => h.step hinj hs) .initial hr
  exact hsound.accounted

theorem number_inj : Function.Injective fun n : ℕ => js n.repr :=
  fun _ _ h => repr_inj (js_inj.mp h)

def appArgs : Value :=
  .record [("port", some (.num (.finite 3000))), ("label", some (.str (js "app")))]

/-- A declared server that comes up, is opened and goes away, and a flush of all its writes. -/
def declaredRun : List Action :=
  ([.declare (js "w") appArgs 5, .workspace 0 (some (some (.container, true))) 6,
      .onSnapshot (js "w") [⟨3000, some 9, none, none, 7⟩] 8, .recordOpen (js "w") 3000 .popup,
      .onSnapshot (js "w") [] 9, .flush] : List Action) ++
    (List.flatten (List.replicate 5 [.land 0, .settle 0]) : List Action) ++
    (List.flatten (List.replicate 5 [.turn, .pass]) : List Action)

theorem declared_accounted : ∃ s, run (step fun n => js n.repr) {} declaredRun = some s ∧
    s.passed = 5 ∧ s.lives.map (fun l => (l.popups.length, l.row.outcome)) = [(1, some .opened)] ∧
    Accounted s := by
  have hsome : (run (step fun n => js n.repr) {} declaredRun).any (fun s => decide (s.passed = 5 ∧
      s.lives.map (fun l => (l.popups.length, l.row.outcome)) = [(1, some .opened)])) = true := by
    decide +kernel
  obtain ⟨s, hr, hends⟩ := (Option.any_eq_true _ _).mp hsome
  obtain ⟨hpassed, hlives⟩ := of_decide_eq_true hends
  exact ⟨s, hr, hpassed, hlives, exposures_accounted number_inj hr⟩

end ClaudeFleet.PortExposure
