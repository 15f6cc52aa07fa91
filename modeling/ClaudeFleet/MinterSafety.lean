import ClaudeFleet.Numbered
import ClaudeFleet.TokenMinter

/-! What holds in every run of the minter: each token a call returns is one GitHub scoped as the
call asked, and no more requests are under way than there are slots, one for each key. -/
namespace ClaudeFleet.TokenMinter
open Js TokenScope Transition

variable {L : Platform} {s : State L} {f : ℕ} {query : TokenQuery L} {k : Text}
  {token : ScopedToken} {v : TokenRequest} {fetches fetches' : List (Fetch L)}

/-- The request is for the query of that key. -/
def Asks (fetches : List (Fetch L)) (f : ℕ) (k : Text) : Prop :=
  ∃ fetch, fetches[f]? = some fetch ∧ key fetch.query = k

/-- A request of that key gave the token. -/
def Gave (fetches : List (Fetch L)) (k : Text) (token : ScopedToken) : Prop :=
  ∃ (f : ℕ) (query : TokenQuery L) (outcome : Except MintError Value),
    fetches[f]? = some (Fetch.mk query (.done outcome)) ∧ key query = k ∧
      fetched (Fetch.mk query (.done outcome)) outcome = .ok token

/-- Requests stay what they are for, and those done stay as they are. -/
def Later (fetches fetches' : List (Fetch L)) : Prop :=
  ∀ (f : ℕ) (query : TokenQuery L) (stage : Stage), fetches[f]? = some (Fetch.mk query stage) →
    ∃ stage', fetches'[f]? = some ⟨query, stage'⟩ ∧ (stage.unfinished = false → stage' = stage)

structure AskedSound (v : TokenRequest) (asked : Asked L) : Prop where
  repositories : asked.query.repositories = v.repositories
  permissions : ∀ k,
    asked.query.permissions.get? k = (v.permissions.getD asked.ceiling).get? k
  covered : Covered asked.query.permissions.get? asked.ceiling.get?

def StageSound (fetches : List (Fetch L)) (v : TokenRequest) : CallStage L → Prop
  | .owner _ | .failed _ => True
  | .waits asked f => AskedSound v asked ∧ Asks fetches f (key asked.query)
  | .returned asked source token =>
    AskedSound v asked ∧ Gave fetches (key asked.query) token ∧
      ∀ now, source = .cache now → REFRESH_BEFORE_MS < token.expiresAt - now

structure CallSound (fetches : List (Fetch L)) (call : Call L) : Prop where
  valid : validateTokenRequest L call.raw = .ok call.request
  allowed : ∀ r ∈ call.request.repositories.names, Allowed L call.allow r
  stage : StageSound fetches call.request call.stage

/-- What holds in every run: the slots taken are those of the requests, each unfinished request is
the one in flight for its key, and what the cache and the calls have was given. -/
structure Sound (s : State L) : Prop where
  running : s.gate.running = s.fetches.countP fun fetch => fetch.stage.holdsSlot
  inflight : ∀ (f : ℕ) (query : TokenQuery L) (stage : Stage), s.fetches[f]? = some (Fetch.mk query stage) →
    stage.unfinished = true → s.inflight.get? (key query) = some f
  known : ∀ k f, s.inflight.get? k = some f → Asks s.fetches f k
  cached : ∀ k token, s.cache.get? k = some token → Gave s.fetches k token
  calls : ∀ call ∈ s.calls, CallSound s.fetches call

/-- What the condition adds. -/
structure Bounded (s : State L) : Prop where
  slots : s.gate.Within MAX_INFLIGHT
  replied : ∀ (f : ℕ) (query : TokenQuery L) (stage : Stage) (j : Value),
    s.fetches[f]? = some (Fetch.mk query stage) → stage.outcome = some (.ok j) → Unjoined query j

theorem countP_replace {α : Type*} {l : List α} {n : ℕ} {x y : α} (h : l[n]? = some y)
    (p : α → Bool) :
    (l.set n x).countP p + (if p y then 1 else 0) = l.countP p + if p x then 1 else 0 := by
  obtain ⟨hn, hy⟩ := List.getElem?_eq_some_iff.mp h
  have hle := List.boole_getElem_le_countP (p := p) hn
  rw [List.countP_set hn, hy] at *
  omega

/-! The requests grow. -/

theorem Later.refl (fetches : List (Fetch L)) : Later fetches fetches :=
  fun _ _ stage h => ⟨stage, h, fun _ => rfl⟩

theorem later_concat (fetches : List (Fetch L)) (fetch : Fetch L) :
    Later fetches (fetches ++ [fetch]) :=
  fun _ _ stage h => ⟨stage, getElem?_append_of_some h [fetch], fun _ => rfl⟩

theorem later_set {old : Stage} (hf : fetches[f]? = some ⟨query, old⟩)
    (hold : old.unfinished = true) (stage : Stage) :
    Later fetches (fetches.set f { query, stage }) := by
  intro g query' stage' hg
  rw [List.getElem?_set]
  split_ifs with heq hlt
  · subst heq
    obtain ⟨rfl, rfl⟩ := Fetch.mk.inj (Option.some.inj (hf.symm.trans hg))
    exact ⟨stage, rfl, fun h => absurd h (by simp [hold])⟩
  · exact absurd (heq ▸ (List.getElem?_eq_some_iff.mp hg).1) hlt
  · exact ⟨stage', hg, fun _ => rfl⟩

theorem Asks.later (h : Asks fetches f k) (hl : Later fetches fetches') : Asks fetches' f k := by
  obtain ⟨⟨query, stage⟩, hf, hk⟩ := h
  obtain ⟨stage', hf', -⟩ := hl f query stage hf
  exact ⟨⟨query, stage'⟩, hf', hk⟩

theorem Gave.later (h : Gave fetches k token) (hl : Later fetches fetches') :
    Gave fetches' k token := by
  obtain ⟨f, query, outcome, hf, hk, htoken⟩ := h
  obtain ⟨stage', hf', hdone⟩ := hl f query _ hf
  exact ⟨f, query, outcome, hdone rfl ▸ hf', hk, htoken⟩

theorem StageSound.later {stage : CallStage L} (h : StageSound fetches v stage)
    (hl : Later fetches fetches') : StageSound fetches' v stage := by
  cases stage with
  | owner p => trivial
  | failed e => trivial
  | waits asked f => exact ⟨h.1, h.2.later hl⟩
  | returned asked source token => exact ⟨h.1, h.2.1.later hl, h.2.2⟩

theorem CallSound.later {call : Call L} (h : CallSound fetches call)
    (hl : Later fetches fetches') : CallSound fetches' call :=
  ⟨h.valid, h.allowed, h.stage.later hl⟩

/-! The token requests. -/

theorem sendStage_holdsSlot (s : State L) (now : ℤ) : (sendStage s now).holdsSlot = true := by
  unfold sendStage
  split_ifs <;> rfl

theorem sendStage_unfinished (s : State L) (now : ℤ) : (sendStage s now).unfinished = true := by
  unfold sendStage
  split_ifs <;> rfl

theorem sendStage_outcome (s : State L) (now : ℤ) (j : Value) :
    (sendStage s now).outcome ≠ some (.ok j) := by
  unfold sendStage
  split_ifs <;> simp [Stage.outcome]

theorem Sound.fetchToken (h : Sound s) (hnone : s.inflight.get? (key query) = none) (now : ℤ) :
    Sound (fetchToken s query now) := by
  have hl := later_concat s.fetches
    ⟨query, if MAX_INFLIGHT ≤ s.gate.running then .queued else sendStage s now⟩
  refine ⟨?_, ?_, ?_, fun k token hk => (h.cached k token hk).later hl,
    fun call hcall => (h.calls call hcall).later hl⟩
  · have hrun := h.running
    simp only [TokenMinter.fetchToken, SlotGate.enter, List.countP_append, List.countP_singleton]
    split_ifs with hfull hq hq
    · exact absurd hq (by decide)
    · omega
    · dsimp only
      omega
    · exact absurd (sendStage_holdsSlot s now) hq
  · intro g query' stage hg hun
    have hget := JsMap.get?_set s.inflight (key query) (key query') s.fetches.length
    refine hget.trans ?_
    rcases getElem?_concat_cases hg with hold | ⟨rfl, hnew⟩
    · have hin := h.inflight g query' stage hold hun
      rw [if_neg (fun heq => by simp [heq ▸ hin] at hnone), hin]
    · rw [if_pos (congrArg key (Fetch.mk.inj hnew).1.symm)]
  · intro k g hk
    have hget := JsMap.get?_set s.inflight (key query) k s.fetches.length
    have hk := hget.symm.trans hk
    split_ifs at hk with heq
    · obtain rfl := Option.some.inj hk
      exact ⟨_, List.getElem?_concat_length, heq.symm⟩
    · exact (h.known k g hk).later hl

/-- A request goes on, with its slot accounted for. -/
theorem Sound.setStage {old : Stage} (h : Sound s) (hf : s.fetches[f]? = some ⟨query, old⟩)
    (hold : old.unfinished = true) (stage : Stage) (gate : SlotGate ℕ)
    (hrun : gate.running + (if old.holdsSlot then 1 else 0) =
      s.gate.running + if stage.holdsSlot then 1 else 0) (blockedUntil : ℚ) :
    Sound { TokenMinter.setStage s f ⟨query, old⟩ stage with gate, blockedUntil } := by
  have hl := later_set hf hold stage
  refine ⟨?_, ?_, fun k g hk => (h.known k g hk).later hl,
    fun k token hk => (h.cached k token hk).later hl,
    fun call hcall => (h.calls call hcall).later hl⟩
  · have hcount := countP_replace (x := (⟨query, stage⟩ : Fetch L)) hf
      fun fetch => fetch.stage.holdsSlot
    have hold := h.running
    simp only [TokenMinter.setStage] at *
    omega
  · intro g query' stage' hg hun'
    rcases getElem?_set_cases hg with ⟨rfl, hnew⟩ | ⟨-, hsame⟩
    · obtain ⟨rfl, rfl⟩ := Fetch.mk.inj hnew
      exact h.inflight f query old hf hold
    · exact h.inflight g query' stage' hsame hun'

/-- A request that is done is no longer in flight. -/
theorem Sound.finish {outcome : Except MintError Value} (h : Sound s)
    (hf : s.fetches[f]? = some ⟨query, .released outcome⟩) :
    Sound { TokenMinter.setStage s f ⟨query, .released outcome⟩ (.done outcome) with
      inflight := s.inflight.delete (key query) } := by
  have hl := later_set hf rfl (.done outcome)
  refine ⟨?_, ?_, fun k g hk => (h.known k g (JsMap.get?_of_delete hk)).later hl,
    fun k token hk => (h.cached k token hk).later hl,
    fun call hcall => (h.calls call hcall).later hl⟩
  · have hcount := countP_replace (x := (⟨query, .done outcome⟩ : Fetch L)) hf
      fun fetch => fetch.stage.holdsSlot
    exact h.running.trans hcount.symm
  · intro g query' stage' hg hun
    rcases getElem?_set_cases hg with ⟨rfl, hnew⟩ | ⟨hne, hsame⟩
    · obtain ⟨rfl, rfl⟩ := Fetch.mk.inj hnew
      cases hun
    · have hin := h.inflight g query' stage' hsame hun
      have hkey : key query' ≠ key query := by
        intro heq
        rw [heq, h.inflight f query _ hf rfl] at hin
        exact hne (Option.some.inj hin)
      exact (JsMap.get?_delete_of_ne s.inflight hkey).trans hin

/-! The calls. -/

theorem Sound.addCall {call : Call L} (h : Sound s) (hcall : CallSound s.fetches call) :
    Sound { s with calls := s.calls ++ [call] } := by
  refine ⟨h.running, h.inflight, h.known, h.cached, fun call' hmem => ?_⟩
  rcases List.mem_append.mp hmem with hold | hnew
  · exact h.calls call' hold
  · exact List.mem_singleton.mp hnew ▸ hcall

theorem Sound.setCall {call : Call L} {stage : CallStage L} (h : Sound s) (c : ℕ)
    (hcall : CallSound s.fetches { call with stage }) : Sound (setCall s c call stage) := by
  refine ⟨h.running, h.inflight, h.known, h.cached, fun call' hmem => ?_⟩
  rcases List.mem_or_eq_of_mem_set hmem with hold | rfl
  · exact h.calls call' hold
  · exact hcall

theorem Sound.account (h : Sound s) (now : ℤ) : Sound (account s now).1 := by
  unfold TokenMinter.account
  split
  · exact h
  · exact ⟨h.running, h.inflight, h.known, h.cached, h.calls⟩

theorem calls_proceed (s : State L) (v : TokenRequest) (now : ℤ) :
    (proceed s v now).1.calls = s.calls := by
  unfold proceed
  split
  · rfl
  · dsimp only
    split <;> rfl

theorem askedSound_of_authorize {p : Permissions} (h : authorize L v p = .ok query) :
    AskedSound v ⟨query, p⟩ :=
  have hq := covered_of_authorize h
  ⟨hq.1, hq.2.1, hq.2.2⟩

theorem liveHit_eq_some {now : ℤ} (h : liveHit s query now = some token) :
    s.cache.get? (key query) = some token ∧ REFRESH_BEFORE_MS < token.expiresAt - now := by
  obtain ⟨hget, hlive⟩ := Option.filter_eq_some_iff.mp h
  exact ⟨hget, of_decide_eq_true hlive⟩

/-- A call that goes on finds its token, or a request to wait for. -/
theorem proceed_sound (h : Sound s) (v : TokenRequest) (now : ℤ) :
    Sound (proceed s v now).1 ∧ StageSound (proceed s v now).1.fetches v (proceed s v now).2 := by
  unfold proceed
  split
  · exact ⟨h, trivial⟩
  · next query hquery =>
    have hasked := askedSound_of_authorize hquery
    dsimp only
    split
    · next token hhit =>
      obtain ⟨hget, hlive⟩ := liveHit_eq_some hhit
      refine ⟨h, hasked, h.cached _ token hget, ?_⟩
      rintro now' heq
      obtain rfl := Source.cache.inj heq
      exact hlive
    · next f _ hin => exact ⟨h, hasked, h.known _ f hin⟩
    · next _ hnone =>
      exact ⟨h.fetchToken hnone now, hasked, _, List.getElem?_concat_length, rfl⟩

theorem Sound.begin_ {raw : Value} (h : Sound s) (hv : validateTokenRequest L raw = .ok v)
    (hallow : checkAllow L s.allow v = .ok ()) (now : ℤ) : Sound (begin_ s raw v now) := by
  have hallowed := allowed_of_checkAllow hallow
  unfold TokenMinter.begin_
  dsimp only
  split
  · exact (h.account now).addCall ⟨hv, hallowed, trivial⟩
  · obtain ⟨hs, hstage⟩ := proceed_sound h v now
    exact hs.addCall ⟨hv, hallowed, hstage⟩

theorem mint_eq_ok {raw : Value} {now : ℤ} {t : State L} (h : mint s raw now = .ok t) :
    ∃ v, validateTokenRequest L raw = .ok v ∧ checkAllow L s.allow v = .ok () ∧
      t = begin_ s raw v now := by
  unfold mint at h
  cases hv : validateTokenRequest L raw with
  | error e => simp [hv, bind, Except.bind] at h
  | ok v =>
    cases hallow : checkAllow L s.allow v with
    | error e => simp [hv, hallow, bind, Except.bind] at h
    | ok u =>
      simp only [hv, hallow, bind, Except.bind, pure, Except.pure, Except.ok.injEq] at h
      exact ⟨v, rfl, hallow, h.symm⟩

theorem Sound.ownerKnown {c : ℕ} {call : Call L} (h : Sound s) (hcall : call ∈ s.calls)
    (login : Except MintError Text) (now : ℤ) : Sound (ownerKnown s c call login now) := by
  have hc := h.calls call hcall
  unfold TokenMinter.ownerKnown
  split
  · exact h.setCall c ⟨hc.valid, hc.allowed, trivial⟩
  · obtain ⟨hs, hstage⟩ := proceed_sound h call.request now
    exact hs.setCall c ⟨hc.valid, hc.allowed, hstage⟩

theorem get?_of_iterate_dropFirst {m : JsMap Text ScopedToken} (n : ℕ)
    (h : (JsMap.dropFirst^[n] m).get? k = some token) : m.get? k = some token := by
  induction n generalizing m with
  | zero => exact h
  | succ n ih => exact JsMap.get?_of_dropFirst (ih h)

theorem get?_of_remember {m : JsMap Text ScopedToken} {k' : Text} {token' : ScopedToken}
    (h : (remember m k token).get? k' = some token') :
    k' = k ∧ token' = token ∨ m.get? k' = some token' := by
  have hget := get?_of_iterate_dropFirst _ h
  rw [JsMap.get?_set] at hget
  split_ifs at hget with heq
  · exact Or.inl ⟨heq, (Option.some.inj hget).symm⟩
  · exact Or.inr (JsMap.get?_of_delete hget)

theorem Sound.resume {c : ℕ} {call : Call L} {asked : Asked L} {outcome : Except MintError Value}
    (h : Sound s) (hcall : call ∈ s.calls) (hstage : call.stage = .waits asked f)
    (hf : s.fetches[f]? = some ⟨query, .done outcome⟩) :
    Sound (resume s c call asked f (fetched ⟨query, .done outcome⟩ outcome)) := by
  have hc := h.calls call hcall
  have hsound := hc.stage
  rw [hstage] at hsound
  obtain ⟨hasked, fetch, hfetch, hkey⟩ := hsound
  obtain rfl := Option.some.inj (hfetch.symm.trans hf)
  unfold TokenMinter.resume
  split
  · exact h.setCall c ⟨hc.valid, hc.allowed, trivial⟩
  · next token htoken =>
    have hgave : Gave s.fetches (key asked.query) token := ⟨f, query, outcome, hf, hkey, htoken⟩
    have hs : Sound { s with cache := remember s.cache (key asked.query) token } := by
      refine ⟨h.running, h.inflight, h.known, fun k' token' hget => ?_, h.calls⟩
      rcases get?_of_remember hget with ⟨rfl, rfl⟩ | hold
      · exact hgave
      · exact h.cached k' token' hold
    exact hs.setCall c ⟨hc.valid, hc.allowed, hasked, hgave, fun _ heq => by cases heq⟩

theorem sound_init : Sound ({} : State L) where
  running := rfl
  inflight _ _ _ h := by simp at h
  known _ _ h := by cases h
  cached _ _ h := by cases h
  calls _ h := absurd h List.not_mem_nil

/-! One step. -/

theorem running_pos {old : Stage} (h : Sound s) (hf : s.fetches[f]? = some ⟨query, old⟩)
    (hold : old.holdsSlot = true) : 0 < s.gate.running := by
  rw [h.running, List.countP_pos_iff]
  exact ⟨_, List.mem_of_getElem? hf, hold⟩

theorem step_sound {s' : State L} {a : Action} (h : Sound s) (hs : step s a = some s') :
    Sound s' := by
  cases a with
  | configure allow permissions =>
    exact Option.some.inj hs ▸ ⟨h.running, h.inflight, h.known, h.cached, h.calls⟩
  | account now => exact Option.some.inj hs ▸ h.account now
  | accountReply p r now =>
    simp only [step] at hs
    split at hs
    · exact Option.some.inj hs ▸ ⟨h.running, h.inflight, h.known, h.cached, h.calls⟩
    · cases hs
  | forgetAccount p =>
    simp only [step] at hs
    split at hs
    · exact Option.some.inj hs ▸ ⟨h.running, h.inflight, h.known, h.cached, h.calls⟩
    · cases hs
  | mint raw now =>
    simp only [step] at hs
    split at hs
    · next t ht =>
      obtain ⟨v, hv, hallow, rfl⟩ := mint_eq_ok ht
      exact Option.some.inj hs ▸ h.begin_ hv hallow now
    · exact Option.some.inj hs ▸ h
  | ownerKnown c now =>
    simp only [step] at hs
    split at hs
    · next call hcall =>
      split at hs
      · split at hs
        · next login hlogin =>
          exact Option.some.inj hs ▸ h.ownerKnown (List.mem_of_getElem? hcall) login now
        · cases hs
      · cases hs
    · cases hs
  | continue_ f now =>
    simp only [step] at hs
    split at hs
    · next query hf =>
      obtain ⟨hwoken, rfl⟩ := Option.ite_none_right_eq_some.mp hs |>.imp_right Option.some.inj
      refine h.setStage hf rfl _ (s.gate.resume f) ?_ s.blockedUntil
      rw [sendStage_holdsSlot]
      rfl
    · cases hs
  | reply f r now =>
    simp only [step] at hs
    split at hs
    · next query hf =>
      obtain rfl := Option.some.inj hs
      exact h.setStage hf rfl (.answered (callResult L .accessTokens r now)) s.gate rfl _
    · cases hs
  | release f =>
    simp only [step] at hs
    split at hs
    · next query outcome hf =>
      have hpos := running_pos h hf rfl
      refine Option.some.inj hs ▸ h.setStage hf rfl _ s.gate.leave ?_ s.blockedUntil
      rw [SlotGate.running_leave]
      exact Nat.sub_add_cancel hpos
    · cases hs
  | finish f =>
    simp only [step] at hs
    split at hs
    · next query outcome hf => exact Option.some.inj hs ▸ h.finish hf
    · cases hs
  | resume c =>
    simp only [step] at hs
    split at hs
    · next call hcall =>
      split at hs
      · next asked f hstage =>
        split at hs
        · next query outcome hf =>
          exact Option.some.inj hs ▸ h.resume (List.mem_of_getElem? hcall) hstage hf
        · cases hs
      · cases hs
    · cases hs

/-! With the condition. -/

theorem bounded_init : Bounded ({} : State L) where
  slots := Nat.zero_le _
  replied _ _ _ _ h := by simp at h

theorem Bounded.fetchToken (h : Bounded s) (hspare : s.gate.Spare MAX_INFLIGHT) (now : ℤ) :
    Bounded (fetchToken s query now) := by
  refine ⟨h.slots.enter hspare, fun f query' stage j hf hj => ?_⟩
  rcases getElem?_concat_cases hf with hold | ⟨-, hnew⟩
  · exact h.replied f query' stage j hold hj
  · obtain ⟨rfl, rfl⟩ := Fetch.mk.inj hnew
    split_ifs at hj
    · cases hj
    · exact absurd hj (sendStage_outcome s now j)

theorem Bounded.proceed {now : ℤ} (h : Bounded s)
    (hok : needsFetch s v now = true → s.gate.Spare MAX_INFLIGHT) :
    Bounded (proceed s v now).1 := by
  unfold TokenMinter.proceed
  split
  · exact h
  · next query hquery =>
    dsimp only
    split
    · exact h
    · exact h
    · next hhit hnone =>
      refine h.fetchToken (hok ?_) now
      simp [needsFetch, hquery, hhit, hnone]

theorem Bounded.account (h : Bounded s) (now : ℤ) : Bounded (account s now).1 := by
  unfold TokenMinter.account
  split
  · exact h
  · exact ⟨h.slots, h.replied⟩

/-- A request goes on, with the slots within their number and what is known of the reply. -/
theorem Bounded.setStage {old stage : Stage} {gate : SlotGate ℕ} {blockedUntil : ℚ}
    {inflight : JsMap Text ℕ} (h : Bounded s) (hgate : gate.Within MAX_INFLIGHT)
    (hstage : ∀ j, stage.outcome = some (.ok j) → Unjoined query j) :
    Bounded { TokenMinter.setStage s f ⟨query, old⟩ stage with gate, blockedUntil, inflight } := by
  refine ⟨hgate, fun g query' stage' j hg hj => ?_⟩
  rcases getElem?_set_cases hg with ⟨rfl, hnew⟩ | ⟨-, hsame⟩
  · obtain ⟨rfl, rfl⟩ := Fetch.mk.inj hnew
    exact hstage j hj
  · exact h.replied g query' stage' j hsame hj

theorem callResult_eq_ok {e : Endpoint} {r : Response} {now : ℤ} {j : Value}
    (h : callResult L e r now = .ok j) : r = .ok (some j) := by
  unfold callResult at h
  split at h
  · cases h
  · cases h
  · exact Except.ok.inj h ▸ rfl
  · cases h

theorem step_bounded {s' : State L} {a : Action} (h : Sound s ∧ Bounded s) (hok : Orderly s a)
    (hs : step s a = some s') : Sound s' ∧ Bounded s' := by
  obtain ⟨hsound, h⟩ := h
  refine ⟨step_sound hsound hs, ?_⟩
  cases a with
  | configure allow permissions => exact Option.some.inj hs ▸ ⟨h.slots, h.replied⟩
  | account now => exact Option.some.inj hs ▸ h.account now
  | accountReply p r now =>
    simp only [step] at hs
    split at hs
    · exact Option.some.inj hs ▸ ⟨h.slots, h.replied⟩
    · cases hs
  | forgetAccount p =>
    simp only [step] at hs
    split at hs
    · exact Option.some.inj hs ▸ ⟨h.slots, h.replied⟩
    · cases hs
  | mint raw now =>
    simp only [step] at hs
    split at hs
    · next t ht =>
      obtain ⟨v, hv, hallow, rfl⟩ := mint_eq_ok ht
      obtain rfl := Option.some.inj hs
      unfold begin_
      dsimp only
      split
      · exact ⟨(h.account now).slots, (h.account now).replied⟩
      · next hnone =>
        have hnow : v ∈ proceedsAtOnce s raw := by
          simp [proceedsAtOnce, hv, hallow, hnone, Except.isOk, Except.toBool]
        have hp := h.proceed (hok v hnow)
        exact ⟨hp.slots, hp.replied⟩
    · exact Option.some.inj hs ▸ h
  | ownerKnown c now =>
    simp only [step] at hs
    split at hs
    · next call hcall =>
      split at hs
      · next p hp =>
        split at hs
        · next login hlogin =>
          obtain rfl := Option.some.inj hs
          unfold ownerKnown
          split
          · exact ⟨h.slots, h.replied⟩
          · next hpass =>
            have howner : ownerPasses s call = true := by
              unfold ownerPasses
              rw [hp]
              dsimp only
              rw [hlogin]
              dsimp only
              rw [hpass]
              rfl
            have hproceed := h.proceed (hok call hcall howner)
            exact ⟨hproceed.slots, hproceed.replied⟩
        · cases hs
      · cases hs
    · cases hs
  | continue_ f now =>
    simp only [step] at hs
    split at hs
    · next query hf =>
      obtain ⟨hwoken, rfl⟩ := Option.ite_none_right_eq_some.mp hs |>.imp_right Option.some.inj
      exact h.setStage (h.slots.resume hwoken) fun j hj => absurd hj (sendStage_outcome s now j)
    · cases hs
  | reply f r now =>
    simp only [step] at hs
    split at hs
    · next query hf =>
      refine Option.some.inj hs ▸ h.setStage h.slots fun j hj => ?_
      have hr := callResult_eq_ok (Option.some.inj hj)
      subst hr
      exact hok _ hf
    · cases hs
  | release f =>
    simp only [step] at hs
    split at hs
    · next query outcome hf =>
      have hpos := running_pos hsound hf rfl
      obtain rfl := Option.some.inj hs
      exact h.setStage (h.slots.leave hpos) fun j hj => h.replied f query _ j hf hj
    · cases hs
  | finish f =>
    simp only [step] at hs
    split at hs
    · next query outcome hf =>
      obtain rfl := Option.some.inj hs
      exact h.setStage h.slots fun j hj => h.replied f query _ j hf hj
    · cases hs
  | resume c =>
    simp only [step] at hs
    split at hs
    · next call hcall =>
      split at hs
      · split at hs
        · obtain rfl := Option.some.inj hs
          unfold resume
          split
          · exact ⟨h.slots, h.replied⟩
          · exact ⟨h.slots, h.replied⟩
        · cases hs
      · cases hs
    · cases hs

/-- What a call that returned a token checked, and where the token is from. -/
structure Granted (fetches : List (Fetch L)) (call : Call L) (asked : Asked L) (source : Source)
    (token : ScopedToken) : Prop where
  valid : validateTokenRequest L call.raw = .ok call.request
  allowed : ∀ r ∈ call.request.repositories.names, Allowed L call.allow r
  sound : AskedSound call.request asked
  issued : ∃ (f : ℕ) (j : Value),
    fetches[f]? = some (Fetch.mk asked.query (.done (.ok j))) ∧ Issues asked.query j token
  fresh : ∀ now, source = .cache now → REFRESH_BEFORE_MS < token.expiresAt - now

theorem Gave.issued {asked : Asked L} (hb : Bounded s)
    (h : Gave s.fetches (key asked.query) token) : ∃ (f : ℕ) (j : Value),
      s.fetches[f]? = some (Fetch.mk asked.query (.done (.ok j))) ∧
        Issues asked.query j token := by
  obtain ⟨f, query, outcome, hf, hkey, htoken⟩ := h
  obtain rfl := key_injective hkey
  cases outcome with
  | error e => simp [fetched, bind, Except.bind] at htoken
  | ok j => exact ⟨f, j, hf, issues_of_readToken htoken (hb.replied f _ _ j hf rfl)⟩

theorem isSent_le_holdsSlot (s : State L) :
    outstanding s ≤ s.fetches.countP fun fetch => fetch.stage.holdsSlot := by
  refine List.countP_mono_left fun fetch _ h => ?_
  revert h
  cases fetch.stage <;> simp [Stage.isSent, Stage.holdsSlot]

/-- In every order of calls, replies, continuations and changes of the configuration, while the
steps are orderly: no more requests are at GitHub than there are slots, and one at most for the same
repositories and permissions; and the token a call returns is from a reply that GitHub scoped as the
call asked, within what the configuration allowed it then, and is good for longer than the margin
where it is from the cache. -/
theorem minting_sound (as : List Action) (s : State L) (hr : run step {} as = some s)
    (hok : Along step Orderly ({} : State L) as) :
    outstanding s ≤ MAX_INFLIGHT ∧
    (∀ (f g : ℕ) (query query' : TokenQuery L),
      s.fetches[f]? = some (Fetch.mk query .sent) → s.fetches[g]? = some (Fetch.mk query' .sent) →
      (∀ r, r ∈ query.repositories.names ↔ r ∈ query'.repositories.names) →
      (∀ k, query.permissions.get? k = query'.permissions.get? k) → f = g) ∧
    ∀ call ∈ s.calls, ∀ asked source token, call.stage = .returned asked source token →
      Granted s.fetches call asked source token := by
  obtain ⟨h, hb⟩ : Sound s ∧ Bounded s :=
    run_invariant_along (fun _ _ _ h hp hs => step_bounded h hp hs)
      ⟨sound_init, bounded_init⟩ hr hok
  refine ⟨?_, ?_, ?_⟩
  · have hslots := hb.slots
    unfold SlotGate.Within at hslots
    have hcount := isSent_le_holdsSlot s
    rw [← h.running] at hcount
    omega
  · intro f g query query' hf hg hrepos hperms
    have hin := h.inflight f query _ hf rfl
    rw [key_eq_of_same hrepos hperms, h.inflight g query' _ hg rfl] at hin
    exact (Option.some.inj hin).symm
  · intro call hcall asked source token hstage
    have hc := h.calls call hcall
    have hsound := hc.stage
    rw [hstage] at hsound
    exact ⟨hc.valid, hc.allowed, hsound.1, hsound.2.1.issued hb, hsound.2.2⟩

/-- The language as far as plain names, and one date, go. -/
def plain : Platform where
  toLowerCase s := s.map lowerUnit
  localeLe s t := decide (unitLe s t)
  parseDate s := if s = js "2026-01-01T01:00:00Z" then some 1767229200000 else none
  toNumber _ := .nan
  numberText _ := []
  lower_ascii _ _ := rfl
  le_total s t := by simpa using Std.Total.total (r := unitLe) s t
  le_trans s t u := by simpa using IsTrans.trans (r := unitLe) s t u
  le_antisymm s t _ _ h h' := unitLe_antisymm (of_decide_eq_true h) (of_decide_eq_true h')

def requestFor (repositories : List String) : Value :=
  .obj [(js "repositories", .arr none (repositories.map fun r => .str (js r)))]

def replyFor (repositories : List String) : Response :=
  .ok (some (.obj [(js "token", .str (js "ghs_1")),
    (js "expires_at", .str (js "2026-01-01T01:00:00Z")),
    (js "repositories", .arr none (repositories.map fun r => .obj [(js "name", .str (js r))])),
    (js "permissions", .obj [(js "contents", .str (js "write")),
      (js "metadata", .str (js "read"))])]))

/-- A token is asked for, granted and returned, and then once more, out of the cache. -/
def orderly : List Action :=
  [.mint (requestFor ["fleet"]) 1767225600000, .reply 0 (replyFor ["Fleet"]) 1767225600000,
    .release 0, .finish 0, .resume 0, .mint (requestFor ["FLEET"]) 1767225700000]

def isReturned (call : Call L) : Bool :=
  match call.stage with
  | .returned _ _ _ => true
  | _ => false

theorem orderly_granted : ∃ (s : State plain) (call : Call plain) (asked : Asked plain)
    (source : Source) (token : ScopedToken), run step {} orderly = some s ∧ call ∈ s.calls ∧
      Granted s.fetches call asked source token := by
  have hsome : (run step ({} : State plain) orderly).any (fun s => s.calls.any isReturned) =
      true := by decide +kernel
  obtain ⟨s, hs, hany⟩ := (Option.any_eq_true _ _).mp hsome
  obtain ⟨call, hcall, hret⟩ := List.any_eq_true.mp hany
  have hgranted := (minting_sound orderly s hs (by decide +kernel)).2.2 call hcall
  unfold isReturned at hret
  split at hret
  · next asked source token hstage =>
    exact ⟨s, call, asked, source, token, hs, hcall, hgranted asked source token hstage⟩
  · cases hret

/-- A call comes between the slot that is given back and the request that was woken for it. -/
def crowded : List Action :=
  (["a", "b", "c", "d", "e"].map fun r => .mint (requestFor [r]) 0 : List Action) ++
    ([.reply 0 (replyFor ["a"]) 0, .release 0, .mint (requestFor ["f"]) 0,
      .continue_ 4 0] : List Action)

/-- A reply names one repository whose name is those of the query, joined. -/
def joined : List Action :=
  [.mint (requestFor ["a", "b"]) 0, .reply 0 (replyFor ["a,b"]) 0, .release 0, .finish 0, .resume 0]

/-- The repositories of the tokens that calls returned. -/
def returned (s : State L) : List (List Text) :=
  s.calls.filterMap fun call =>
    match call.stage with
    | .returned _ _ token => some token.repositories
    | _ => none

theorem crowded_overruns :
    (∃ s, run step ({} : State plain) crowded = some s ∧ MAX_INFLIGHT < outstanding s) ∧
    ∃ s, run step ({} : State plain) joined = some s ∧ returned s = [[js "a,b"]] := by
  constructor
  · exact ⟨_, rfl, by decide +kernel⟩
  · exact ⟨_, rfl, by decide +kernel⟩

end ClaudeFleet.TokenMinter
