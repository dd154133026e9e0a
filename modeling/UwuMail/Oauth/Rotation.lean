/-
# Codes are traded in once, and a refresh token that comes back ends its grant

The result is `codes_and_rotation`, about every sequence of requests.  It rests on `Inv`, which ties
the rows of the tables to the log: every row comes from an answer that was given, and a refresh
token whose grant still stands has its row until it runs out.  The digest is taken to be INJECTIVE
and the random parts FRESH; then a row's hash says which answer it came from (`same_event`).

Rows that only go take nothing from the invariant (`Inv.less`).  The three steps that add rows, a
new code, a first pair of tokens and the next pair, each have a lemma of their own.
-/
import UwuMail.Oauth.Requests

namespace UwuMail.Oauth

open Table

variable {D : Type} {x : Crypto D}

/-! ## 1. The rows and the log -/

/-- The grant came from a code that was made for this. -/
def Origin (log : List Event) (grantId : Int) (new : NewOauthCode) : Prop :=
  ∃ e ∈ log, ∃ code t, e.redeemed = some (code, t) ∧ t.grantId = grantId ∧
    ∃ e' ∈ log, e'.made = some (code, new)

/-- A code was traded in for what it was made for. -/
def Event.Earned (x : Crypto D) (log : List Event) (e : Event) (code : String) : Prop :=
  ∃ e' ∈ log, ∃ new verifier first second, e'.made = some (code, new) ∧
    e.op = .redeem code new.clientId new.redirectUri verifier first second ∧
    pkceMatches x new.codeChallenge verifier = true ∧
    e'.now ≤ e.now ∧ e.now < e'.now + oauthCodeSecs

/-- What is hashed for a token of a kind. -/
def TokenKind.tokenHash (x : Crypto D) (kind : TokenKind) (t : OauthTokens) : D :=
  match kind with
  | .access => Oauth.tokenHash x "oauth-access" t.accessToken
  | .refresh => Oauth.tokenHash x "oauth-refresh" t.refreshToken

/-- What is so of every answer that was given: it drew its own random parts, what was traded in had
been handed out, and tokens are for a grant that came from a code. -/
structure Event.Ok (x : Crypto D) (log : List Event) (water : Int) (e : Event) : Prop where
  made : ∀ code new, e.made = some (code, new) → ∃ r ∈ e.op.draws, code = newToken codePrefix r
  access : ∀ t, e.issued = some t → ∃ a ∈ e.op.draws, t.accessToken = newToken accessPrefix a
  refresh : ∀ t, e.issued = some t → ∃ r ∈ e.op.draws, t.refreshToken = newToken refreshPrefix r
  grant : ∀ t, e.issued = some t → t.grantId ≤ water ∧
    ∃ new, Origin log t.grantId new ∧ t.scopes = splitWhitespace (scopeList new.scopes)
  earned : ∀ code t, e.redeemed = some (code, t) → e.Earned x log code
  rotated : ∀ token t, e.rotated = some (token, t) →
    ∃ e' ∈ log, ∃ t', e'.issued = some t' ∧ t'.refreshToken = token

/-- Two codes that were traded in, each for a grant of its own. -/
def Event.Apart (e e' : Event) : Prop :=
  ∀ code t code' t', e.redeemed = some (code, t) → e'.redeemed = some (code', t') →
    code ≠ code' ∧ t.grantId ≠ t'.grantId

/-- A code's row is the one it was made with, and the code was not traded in. -/
def Code.Ok (x : Crypto D) (log : List Event) (c : Code D) : Prop :=
  (∃ e ∈ log, ∃ code new, e.made = some (code, new) ∧
    c = new.row (tokenHash x "oauth-code" code) e.now) ∧
  ∀ e ∈ log, ∀ code t, e.redeemed = some (code, t) → c.codeHash ≠ tokenHash x "oauth-code" code

/-- A grant has the scopes of the code it came from, and its app. -/
def Grant.Ok (log : List Event) (water : Int) (g : Grant) : Prop :=
  g.id ≤ water ∧
  ∃ new, Origin log g.id new ∧ g.scopes = scopeList new.scopes ∧ g.clientId = new.clientId

/-- A token's row comes from the answer that handed the token out, and the row of a refresh token
that was traded in says so. -/
def Token.Ok (x : Crypto D) (log : List Event) (r : Token D) : Prop :=
  (∃ e ∈ log, ∃ t, e.issued = some t ∧ t.grantId = r.grantId ∧ r.tokenHash = r.kind.tokenHash x t) ∧
  (r.kind = .refresh → ∀ e ∈ log, ∀ token t, e.rotated = some (token, t) →
    r.tokenHash = Oauth.tokenHash x "oauth-refresh" token → r.usedAt.isSome)

/-- The row of a refresh token that was handed out at `at'`. -/
def Token.IsRefresh (x : Crypto D) (t : OauthTokens) (at' : Int) (r : Token D) : Prop :=
  r.kind = .refresh ∧ r.grantId = t.grantId ∧
    r.tokenHash = Oauth.tokenHash x "oauth-refresh" t.refreshToken ∧
    r.expiresAt = at' + oauthRefreshTokenSecs

/-- How the tables and the log belong together. -/
structure Inv (x : Crypto D) (w : World D) : Prop where
  backed : Backed w.db
  codeHashes : UniqueKey Code.codeHash w.db.codes
  tokenHashes : UniqueKey Token.tokenHash w.db.tokens
  fresh : w.drawn.Nodup
  times : ∀ e ∈ w.log, e.now ≤ w.now
  events : ∀ e ∈ w.log, e.Ok x w.log w.db.grantHighWater
  apart : w.log.Pairwise Event.Apart
  codes : ∀ c ∈ w.db.codes, c.Ok x w.log
  grants : ∀ g ∈ w.db.grants, g.Ok w.log w.db.grantHighWater
  tokens : ∀ r ∈ w.db.tokens, r.Ok x w.log
  /-- The row of a refresh token is there while it would be valid and its grant stands. -/
  kept : ∀ e ∈ w.log, ∀ t, e.issued = some t → (∃ g ∈ w.db.grants, g.id = t.grantId) →
    w.now < e.now + oauthRefreshTokenSecs → ∃ r ∈ w.db.tokens, r.IsRefresh x t e.now
  /-- A grant has at most one refresh token that was not traded in. -/
  live : ∀ r ∈ w.db.tokens, ∀ r' ∈ w.db.tokens, r.kind = .refresh → r'.kind = .refresh →
    r.usedAt = none → r'.usedAt = none → r.grantId = r'.grantId → r = r'

variable {t : OauthTokens}

section Facts

variable {log log' : List Event} {e e' : Event} {w : World D}

theorem Origin.mono {id : Int} {new : NewOauthCode} (hsub : log ⊆ log') (h : Origin log id new) :
    Origin log' id new := by
  obtain ⟨e, he, code, t, hr, hid, e', he', hm⟩ := h
  exact ⟨e, hsub he, code, t, hr, hid, e', hsub he', hm⟩

theorem Event.Earned.mono {code : String} (hsub : log ⊆ log') (h : e.Earned x log code) :
    e.Earned x log' code := by
  obtain ⟨e', he', h⟩ := h
  exact ⟨e', hsub he', h⟩

theorem tokenHash_inj (hsha : x.sha256.Injective) {kind a b : String}
    (h : tokenHash x kind a = tokenHash x kind b) : a = b := by
  have := congrArg String.toList (hsha h)
  simp only [String.toList_append] at this
  exact String.toList_injective (List.append_cancel_left this)

theorem newToken_inj {pre a b : String} (h : newToken pre a = newToken pre b) : a = b := by
  have := congrArg String.toList h
  simp only [newToken, String.toList_append] at this
  exact String.toList_injective (List.append_cancel_left this)

/-- A random part says which answer it is from. -/
theorem same_event (hfresh : (log.flatMap fun e => e.op.draws).Nodup) (he : e ∈ log) (he' : e' ∈ log)
    {d : String} (hd : d ∈ e.op.draws) (hd' : d ∈ e'.op.draws) : e = e' := by
  induction log with
  | nil => cases he
  | cons e₀ log ih =>
    rw [List.flatMap_cons, List.nodup_append] at hfresh
    obtain ⟨-, hlog, hdisj⟩ := hfresh
    have hlater : ∀ e ∈ log, d ∈ e.op.draws → d ∉ e₀.op.draws := fun e he hd hd₀ =>
      hdisj d hd₀ d (List.mem_flatMap.2 ⟨e, he, hd⟩) rfl
    rcases List.mem_cons.1 he with rfl | hin <;> rcases List.mem_cons.1 he' with rfl | hin'
    · rfl
    · exact absurd hd (hlater e' hin' hd')
    · exact absurd hd' (hlater e hin hd)
    · exact ih hlog hin hin'

theorem Event.quiet (h : e.answer.quiet) :
    e.made = none ∧ e.redeemed = none ∧ e.rotated = none ∧ e.issued = none := by
  obtain ⟨now, op, answer⟩ := e
  cases answer with
  | code c => exact h.elim
  | tokens t => exact h.elim
  | refused r => cases op <;> exact ⟨rfl, rfl, rfl, rfl⟩
  | done => cases op <;> exact ⟨rfl, rfl, rfl, rfl⟩
  | error r => cases op <;> exact ⟨rfl, rfl, rfl, rfl⟩

/-- What was redeemed was issued. -/
theorem Event.issued_of_redeemed {code : String} (h : e.redeemed = some (code, t)) :
    e.issued = some t := by
  obtain ⟨now, op, answer⟩ := e
  cases op <;> cases answer <;> simp_all [Event.redeemed, Event.issued]

/-- An answer that handed nothing out. -/
theorem Event.Ok.of_quiet {water : Int} (h : e.answer.quiet) : e.Ok x log water := by
  obtain ⟨hmade, hredeemed, hrotated, hissued⟩ := Event.quiet h
  constructor <;> simp [hmade, hredeemed, hrotated, hissued]

theorem Event.Ok.mono {water water' : Int} (h : e.Ok x log water) (hsub : log ⊆ log')
    (hle : water ≤ water') : e.Ok x log' water' where
  made := h.made
  access := h.access
  refresh := h.refresh
  grant := by
    intro t ht
    obtain ⟨hw, new, horigin, hs⟩ := h.grant t ht
    exact ⟨hw.trans hle, new, horigin.mono hsub, hs⟩
  earned := fun code t ht => (h.earned code t ht).mono hsub
  rotated := by
    intro token t ht
    obtain ⟨e', he', hfrom⟩ := h.rotated token t ht
    exact ⟨e', hsub he', hfrom⟩

theorem Grant.Ok.mono {water water' : Int} {g : Grant} (h : g.Ok log water) (hsub : log ⊆ log')
    (hle : water ≤ water') : g.Ok log' water' := by
  obtain ⟨hw, new, horigin, hs⟩ := h
  exact ⟨hw.trans hle, new, horigin.mono hsub, hs⟩

/-- A code stays what it was as long as it is not the one traded in now. -/
theorem Code.Ok.snoc {c : Code D} (h : c.Ok x log)
    (hno : ∀ code t, e.redeemed = some (code, t) → c.codeHash ≠ tokenHash x "oauth-code" code) :
    c.Ok x (log ++ [e]) := by
  obtain ⟨⟨e', he', hfrom⟩, hunspent⟩ := h
  refine ⟨⟨e', List.mem_append_left _ he', hfrom⟩, ?_⟩
  simpa [or_imp, forall_and] using ⟨hunspent, hno⟩

/-- The row of a token stays what it was as long as it is not the one traded in now. -/
theorem Token.Ok.snoc {r : Token D} (h : r.Ok x log)
    (hno : r.kind = .refresh → ∀ token t, e.rotated = some (token, t) →
      r.tokenHash = Oauth.tokenHash x "oauth-refresh" token → r.usedAt.isSome) :
    r.Ok x (log ++ [e]) := by
  obtain ⟨⟨e', he', hfrom⟩, hused⟩ := h
  refine ⟨⟨e', List.mem_append_left _ he', hfrom⟩, ?_⟩
  intro hkind e' he'
  rcases List.mem_append.1 he' with he' | he'
  · exact hused hkind e' he'
  · rw [List.mem_singleton.1 he']
    exact hno hkind

end Facts

/-! ## 2. The invariant -/

section Preserved

variable {now : Int} {db db' : Db D} {log : List Event} {now₀ : Int}

/-- Rows that go take nothing from the invariant. -/
theorem Inv.less (h : Inv x ⟨db, log, now₀⟩) (hnow : now₀ ≤ now) (hless : Less now db db') :
    Inv x ⟨db', log, now⟩ where
  backed := hless.backed h.backed
  codeHashes := h.codeHashes.sublist hless.codes
  tokenHashes := h.tokenHashes.sublist hless.tokens
  fresh := h.fresh
  times := fun e he => (h.times e he).trans hnow
  events := fun e he => (h.events e he).mono (List.Subset.refl _) hless.highWater.ge
  apart := h.apart
  codes := fun c hc => h.codes c (hless.codes.subset hc)
  grants := fun g hg => (h.grants g (hless.grants.subset hg)).mono (List.Subset.refl _)
    hless.highWater.ge
  tokens := fun r hr => h.tokens r (hless.tokens.subset hr)
  kept := by
    rintro e he t ht ⟨g, hg, hid⟩ hvalid
    obtain ⟨r, hr, hrefresh⟩ :=
      h.kept e he t ht ⟨g, hless.grants.subset hg, hid⟩ (lt_of_le_of_lt hnow hvalid)
    refine ⟨r, hless.kept r hr ?_ ⟨g, hg, hid.trans hrefresh.2.1.symm⟩, hrefresh⟩
    rw [hrefresh.2.2.2]
    exact hvalid
  live := fun r hr r' hr' => h.live r (hless.tokens.subset hr) r' (hless.tokens.subset hr')

/-- What the log says stays so when an event is added that says so too. -/
theorem Inv.events_snoc {water : Int} (h : Inv x ⟨db, log, now⟩) (hle : db.grantHighWater ≤ water)
    (hok : e.Ok x (log ++ [e]) water) : ∀ e' ∈ log ++ [e], e'.Ok x (log ++ [e]) water := by
  intro e' he'
  rcases List.mem_append.1 he' with he' | he'
  · exact (h.events e' he').mono (List.subset_append_left _ _) hle
  · rw [List.mem_singleton.1 he']
    exact hok

/-- A request that traded nothing in and handed no tokens out is logged. -/
theorem Inv.logged {op : Op} {answer : Answer} (h : Inv x ⟨db, log, now⟩)
    (hfresh : (World.drawn ⟨db, log, now⟩ ++ op.draws).Nodup)
    (hok : Event.Ok x (log ++ [⟨now, op, answer⟩]) db.grantHighWater ⟨now, op, answer⟩)
    (hredeemed : Event.redeemed ⟨now, op, answer⟩ = none)
    (hrotated : Event.rotated ⟨now, op, answer⟩ = none)
    (hissued : Event.issued ⟨now, op, answer⟩ = none) :
    Inv x ⟨db, log ++ [⟨now, op, answer⟩], now⟩ := by
  have hsub : log ⊆ log ++ [⟨now, op, answer⟩] := List.subset_append_left _ _
  refine {
    backed := h.backed, codeHashes := h.codeHashes, tokenHashes := h.tokenHashes, live := h.live
    fresh := by simpa [World.drawn] using hfresh
    events := h.events_snoc le_rfl hok
    times := ?_, apart := ?_, codes := ?_, grants := ?_, tokens := ?_, kept := ?_ }
  · simpa [or_imp, forall_and] using h.times
  · refine List.pairwise_append.2 ⟨h.apart, List.pairwise_singleton _ _, ?_⟩
    intro e _ e' he' code t code' t' _ ht'
    rw [List.mem_singleton.1 he', hredeemed] at ht'
    cases ht'
  · exact fun c hc => (h.codes c hc).snoc (by simp [hredeemed])
  · exact fun g hg => (h.grants g hg).mono hsub le_rfl
  · exact fun r hr => (h.tokens r hr).snoc (by simp [hrotated])
  · intro e he t ht
    rcases List.mem_append.1 he with he | he
    · exact h.kept e he t ht
    · rw [List.mem_singleton.1 he, hissued] at ht
      cases ht

/-- A random part that nobody drew before. -/
theorem not_drawn {op : Op} {d : String}
    (hfresh : (World.drawn ⟨db, log, now⟩ ++ op.draws).Nodup) (hd : d ∈ op.draws) :
    ∀ e ∈ log, d ∉ e.op.draws := by
  intro e he hd'
  exact (List.nodup_append.1 hfresh).2.2 d (List.mem_flatMap.2 ⟨e, he, hd'⟩) d hd rfl

variable (hsha : x.sha256.Injective)
include hsha

/-- A new code. -/
theorem Inv.made {new : NewOauthCode} {random : String} (h : Inv x ⟨db, log, now⟩)
    (hfresh : (World.drawn ⟨db, log, now⟩ ++ (Op.createCode new random).draws).Nodup)
    (hfree : ∀ c ∈ db.codes, c.codeHash ≠ tokenHash x "oauth-code" (newToken codePrefix random)) :
    Inv x ⟨{ db with codes := db.codes ++
        [new.row (tokenHash x "oauth-code" (newToken codePrefix random)) now] },
      log ++ [⟨now, .createCode new random, .code (newToken codePrefix random)⟩], now⟩ := by
  have hlogged : Inv x ⟨_, _ ++ [⟨_, _, .code (newToken codePrefix random)⟩], _⟩ := h.logged hfresh
    (by constructor <;> simp [Event.made, Event.redeemed, Event.rotated, Event.issued, Op.draws])
    rfl rfl rfl
  refine { hlogged with
    backed := ⟨h.backed.grantIds, h.backed.tokens, h.backed.grants⟩
    codeHashes := h.codeHashes.append hfree
    codes := ?_ }
  intro c hc
  rcases List.mem_append.1 hc with hc | hc
  · exact hlogged.codes c hc
  · rw [List.mem_singleton.1 hc]
    refine ⟨⟨_, List.mem_append_right _ (List.mem_singleton_self _), _, new, rfl, rfl⟩, ?_⟩
    intro e he code t ht hhash
    rcases List.mem_append.1 he with he | he
    · -- A code that was traded in had been made, from another random part.
      obtain ⟨e', he', new', -, -, -, hmade, -⟩ := (h.events e he).earned code t ht
      obtain ⟨r, hr, rfl⟩ := (h.events e' he').made _ _ hmade
      have hsame : random = r := newToken_inj (tokenHash_inj hsha hhash)
      exact not_drawn hfresh (by simp [Op.draws]) e' he' (hsame ▸ hr)
    · rw [List.mem_singleton.1 he] at ht
      cases ht

omit hsha in
/-- The refresh token of a new pair was never handed out before. -/
theorem Inv.refreshToken_new {op : Op} {d : String} (h : Inv x ⟨db, log, now⟩)
    (hfresh : (World.drawn ⟨db, log, now⟩ ++ op.draws).Nodup) (hd : d ∈ op.draws)
    (ht : t.refreshToken = newToken refreshPrefix d) :
    ∀ e ∈ log, ∀ t', e.issued = some t' → t'.refreshToken ≠ t.refreshToken := by
  intro e he t' ht' hsame
  obtain ⟨r, hr, hfrom⟩ := (h.events e he).refresh t' ht'
  have : d = r := newToken_inj (ht.symm.trans (hsame.symm.trans hfrom))
  exact not_drawn hfresh hd e he (this ▸ hr)

/-- The rows of a new pair. -/
theorem tokenRows_ok {e : Event} (ht : e.issued = some t)
    (hno : ∀ e' ∈ log ++ [e], ∀ token t', e'.rotated = some (token, t') → token ≠ t.refreshToken) :
    ∀ r ∈ tokenRows x now t.grantId t, r.Ok x (log ++ [e]) := by
  intro r hr
  simp only [tokenRows, List.mem_cons, List.not_mem_nil, or_false] at hr
  rcases hr with rfl | rfl
  · exact ⟨⟨e, by simp, t, ht, rfl, rfl⟩, by simp⟩
  · refine ⟨⟨e, by simp, t, ht, rfl, rfl⟩, ?_⟩
    intro _ e' he' token t' ht' hhash
    exact absurd (tokenHash_inj hsha hhash).symm (hno e' he' token t' ht')

omit hsha in
theorem mem_tokenRows_grantId {id : Int} {r : Token D}
    (hr : r ∈ tokenRows x now id t) : r.grantId = id := by
  simp only [tokenRows, List.mem_cons, List.not_mem_nil, or_false] at hr
  rcases hr with rfl | rfl <;> rfl

omit hsha in
/-- Of a new pair one is a refresh token. -/
theorem tokenRows_refresh {id : Int} {r r' : Token D}
    (hr : r ∈ tokenRows x now id t) (hr' : r' ∈ tokenRows x now id t) (hk : r.kind = .refresh)
    (hk' : r'.kind = .refresh) : r = r' := by
  simp only [tokenRows, List.mem_cons, List.not_mem_nil, or_false] at hr hr'
  rcases hr with rfl | rfl
  · cases hk
  · rcases hr' with rfl | rfl
    · cases hk'
    · rfl

/-- A code is traded in: a new grant and its first tokens. -/
theorem Inv.redeemed [DecidableEq D] {code uri verifier access refresh : String} {client : Int}
    (h : Inv x ⟨db, log, now⟩)
    (hfresh : (World.drawn ⟨db, log, now⟩ ++ (Op.redeem code client uri verifier access refresh).draws).Nodup)
    (hdid : Did x now db (.redeem code client uri verifier access refresh) (.tokens t) db') :
    Inv x ⟨db', log ++ [⟨now, .redeem code client uri verifier access refresh, .tokens t⟩], now⟩ := by
  cases hdid with
  | less hquiet => exact hquiet.elim
  | redeemed hc hhash hok ht hcodes hgrants hwater htokens hunique hclients hclient =>
  rename_i c
  let e₀ : Event := ⟨now, .redeem code c.clientId uri verifier access refresh, .tokens t⟩
  have hsub : log ⊆ log ++ [e₀] := List.subset_append_left _ _
  have he₀ : e₀ ∈ log ++ [e₀] := by simp
  have hle : db.grantHighWater ≤ db'.grantHighWater := by omega
  obtain ⟨⟨e₁, he₁, code', new, hmade, hrow⟩, hunspent⟩ := h.codes c hc
  have hcode : code' = code := by
    rw [hrow] at hhash
    exact tokenHash_inj hsha hhash
  subst hcode
  have horigin : Origin (log ++ [e₀]) t.grantId new :=
    ⟨e₀, he₀, code', t, rfl, rfl, e₁, hsub he₁, hmade⟩
  have hscopes : c.scopes = scopeList new.scopes := by rw [hrow]; rfl
  have hclientId : c.clientId = new.clientId := by rw [hrow]; rfl
  have hearned : e₀.Earned x (log ++ [e₀]) code' := by
    simp only [Code.redeemable, Bool.and_eq_true, beq_iff_eq, decide_eq_true_eq] at hok
    obtain ⟨⟨⟨-, huri⟩, hnow⟩, hpkce⟩ := hok
    rw [hrow] at huri hnow hpkce
    refine ⟨e₁, hsub he₁, new, verifier, access, refresh, hmade, ?_, hpkce, h.times e₁ he₁, hnow⟩
    rw [show new.redirectUri = uri from huri, ← hclientId]
  have hnew := h.refreshToken_new hfresh (d := refresh) (by simp [Op.draws]) ht.refresh
  have hold : ∀ r ∈ db.tokens, r.grantId ≤ db.grantHighWater := by
    intro r hr
    obtain ⟨g, hg, hid⟩ := h.backed.tokens r hr
    rw [← hid]
    exact (h.grants g hg).1
  refine {
    backed := ⟨?_, ?_, ?_⟩
    codeHashes := by rw [hcodes]; exact h.codeHashes.deleteWhere _
    tokenHashes := hunique h.tokenHashes
    fresh := by simpa [World.drawn] using hfresh
    times := ?_, events := ?_, apart := ?_, codes := ?_, grants := ?_, tokens := ?_, kept := ?_
    live := ?_ }
  · rw [hgrants]
    refine h.backed.grantIds.append ?_
    intro g hg hid
    have hg := (h.grants g hg).1
    simp only at hid hg
    omega
  · intro r hr
    rw [htokens] at hr
    rw [hgrants]
    rcases List.mem_append.1 hr with hr | hr
    · obtain ⟨g, hg, hid⟩ := h.backed.tokens r hr
      exact ⟨g, List.mem_append_left _ hg, hid⟩
    · exact ⟨_, List.mem_append_right _ (List.mem_singleton_self _), (mem_tokenRows_grantId hr).symm⟩
  · intro g hg
    rw [hgrants] at hg
    rw [hclients]
    rcases List.mem_append.1 hg with hg | hg
    · exact h.backed.grants g hg
    · rw [List.mem_singleton.1 hg]
      exact hclient
  · simpa [or_imp, forall_and] using h.times
  · refine h.events_snoc hle ?_
    constructor
    · intro _ _ hm
      cases hm
    · rintro _ ⟨⟩
      exact ⟨access, by simp [Op.draws], ht.access⟩
    · rintro _ ⟨⟩
      exact ⟨refresh, by simp [Op.draws], ht.refresh⟩
    · rintro _ ⟨⟩
      exact ⟨by rw [ht.grantId, hwater], new, horigin, by rw [ht.scopes, hscopes]⟩
    · rintro _ _ ⟨⟩
      exact hearned
    · intro _ _ hr
      cases hr
  · refine List.pairwise_append.2 ⟨h.apart, List.pairwise_singleton _ _, ?_⟩
    intro e he e' he' code t₁ code' t' ht₁ ht'
    rw [List.mem_singleton.1 he'] at ht'
    cases ht'
    constructor
    · rintro rfl
      exact hunspent e he _ _ ht₁ hhash
    · have := ((h.events e he).grant t₁ (Event.issued_of_redeemed ht₁)).1
      rw [ht.grantId]
      simp only at this
      omega
  · intro c' hc'
    rw [hcodes] at hc'
    obtain ⟨hc', hne⟩ := mem_deleteWhere.1 hc'
    refine (h.codes c' hc').snoc ?_
    rintro _ _ ⟨⟩
    simpa using hne
  · intro g hg
    rw [hgrants] at hg
    rcases List.mem_append.1 hg with hg | hg
    · exact (h.grants g hg).mono hsub hle
    · rw [List.mem_singleton.1 hg]
      exact ⟨hwater.ge, new, ht.grantId ▸ horigin, hscopes, hclientId⟩
  · intro r hr
    rw [htokens] at hr
    rcases List.mem_append.1 hr with hr | hr
    · exact (h.tokens r hr).snoc fun _ _ _ hrot => by cases hrot
    · rw [← ht.grantId] at hr
      refine tokenRows_ok hsha rfl ?_ r hr
      intro e he token t' hrot
      rcases List.mem_append.1 he with he | he
      · obtain ⟨e', he', t'', ht'', rfl⟩ := (h.events e he).rotated token t' hrot
        exact hnew e' he' t'' ht''
      · rw [List.mem_singleton.1 he] at hrot
        cases hrot
  · rintro e he t' ht' ⟨g, hg, hid⟩ hvalid
    rw [htokens]
    rcases List.mem_append.1 he with he | he
    · have hgrant := ((h.events e he).grant t' ht').1
      rw [hgrants] at hg
      rcases List.mem_append.1 hg with hg | hg
      · obtain ⟨r, hr, hrefresh⟩ := h.kept e he t' ht' ⟨g, hg, hid⟩ hvalid
        exact ⟨r, List.mem_append_left _ hr, hrefresh⟩
      · rw [List.mem_singleton.1 hg] at hid
        simp only at hid hgrant
        omega
    · rw [List.mem_singleton.1 he] at ht' ⊢
      cases ht'
      exact ⟨_, List.mem_append_right _ (List.mem_cons_of_mem _ (List.mem_singleton_self _)), rfl,
        ht.grantId.symm, rfl, rfl⟩
  · intro r hr r' hr' hk hk' hu hu' hid
    rw [htokens] at hr hr'
    rcases List.mem_append.1 hr with hr | hr <;> rcases List.mem_append.1 hr' with hr' | hr'
    · exact h.live r hr r' hr' hk hk' hu hu' hid
    · have := hold r hr
      rw [mem_tokenRows_grantId hr'] at hid
      omega
    · have := hold r' hr'
      rw [mem_tokenRows_grantId hr] at hid
      omega
    · exact tokenRows_refresh hr hr' hk hk'

/-- A refresh token is traded in: its row says so, and its grant has the next two tokens. -/
theorem Inv.rotated [DecidableEq D] {token access refresh : String} {client : Int}
    (h : Inv x ⟨db, log, now⟩)
    (hfresh : (World.drawn ⟨db, log, now⟩ ++ (Op.refresh token client access refresh).draws).Nodup)
    (hdid : Did x now db (.refresh token client access refresh) (.tokens t) db') :
    Inv x ⟨db', log ++ [⟨now, .refresh token client access refresh, .tokens t⟩], now⟩ := by
  cases hdid with
  | less hquiet => exact hquiet.elim
  | rotated hrow hhash hkind hunused hvalid hg hid ht hcodes hgrants hwater htokens hunique hclients =>
  rename_i row g
  let e₀ : Event := ⟨now, .refresh token g.clientId access refresh, .tokens t⟩
  have hsub : log ⊆ log ++ [e₀] := List.subset_append_left _ _
  have hle : db.grantHighWater ≤ db'.grantHighWater := hwater.ge
  obtain ⟨hwatermark, new, horigin, hscopes, -⟩ := h.grants g hg
  have hnew := h.refreshToken_new hfresh (d := refresh) (by simp [Op.draws]) ht.refresh
  -- The token that is traded in was handed out before.
  obtain ⟨e₁, he₁, t₁, ht₁, -, hfrom⟩ := (h.tokens row hrow).1
  have htoken : t₁.refreshToken = token := by
    rw [hkind] at hfrom
    exact tokenHash_inj hsha (hfrom.symm.trans hhash)
  -- An old row is as it was, or it is the row of the token and says that it is used.
  have hold : ∀ r ∈ db'.tokens, r ∈ tokenRows x now g.id t ∨ ∃ u ∈ db.tokens,
      (r = u ∧ u.tokenHash ≠ row.tokenHash) ∨
        (r = { u with usedAt := some now } ∧ u.tokenHash = row.tokenHash) := by
    intro r hr
    rw [htokens] at hr
    rcases List.mem_append.1 hr with hr | hr
    · obtain ⟨u, hu, hru⟩ := mem_updateWhere.1 (mem_deleteWhere.1 hr).1
      refine .inr ⟨u, hu, ?_⟩
      by_cases hsame : u.tokenHash = row.tokenHash
      · exact .inr ⟨by simpa [hsame] using hru.symm, hsame⟩
      · exact .inl ⟨by simpa [hsame] using hru.symm, hsame⟩
    · exact .inl hr
  refine {
    backed := ⟨?_, ?_, ?_⟩
    codeHashes := by rw [hcodes]; exact h.codeHashes
    tokenHashes := hunique h.tokenHashes
    fresh := by simpa [World.drawn] using hfresh
    times := ?_, events := ?_, apart := ?_, codes := ?_, grants := ?_, tokens := ?_, kept := ?_
    live := ?_ }
  · rw [hgrants]
    exact h.backed.grantIds
  · intro r hr
    rw [hgrants]
    rcases hold r hr with hr | ⟨u, hu, ⟨rfl, -⟩ | ⟨rfl, -⟩⟩
    · exact ⟨g, hg, (mem_tokenRows_grantId hr).symm⟩
    · exact h.backed.tokens r hu
    · exact h.backed.tokens u hu
  · intro g' hg'
    rw [hgrants] at hg'
    obtain ⟨c, hc, hcid⟩ := h.backed.grants g' hg'
    obtain ⟨c', hc', hcid'⟩ := hclients c hc
    exact ⟨c', hc', hcid'.trans hcid⟩
  · simpa [or_imp, forall_and] using h.times
  · refine h.events_snoc hle ?_
    constructor
    · intro _ _ hm
      cases hm
    · rintro _ ⟨⟩
      exact ⟨access, by simp [Op.draws], ht.access⟩
    · rintro _ ⟨⟩
      exact ⟨refresh, by simp [Op.draws], ht.refresh⟩
    · rintro _ ⟨⟩
      rw [ht.grantId]
      exact ⟨hwatermark.trans hle, new, horigin.mono hsub, by rw [ht.scopes, hscopes]⟩
    · intro _ _ hr
      cases hr
    · rintro _ _ ⟨⟩
      exact ⟨e₁, hsub he₁, t₁, ht₁, htoken⟩
  · refine List.pairwise_append.2 ⟨h.apart, List.pairwise_singleton _ _, ?_⟩
    intro e _ e' he' code t code' t' _ ht'
    rw [List.mem_singleton.1 he'] at ht'
    cases ht'
  · intro c hc
    rw [hcodes] at hc
    exact (h.codes c hc).snoc fun _ _ hr => by cases hr
  · intro g' hg'
    rw [hgrants] at hg'
    exact (h.grants g' hg').mono hsub hle
  · intro r hr
    rcases hold r hr with hr | ⟨u, hu, ⟨rfl, hne⟩ | ⟨rfl, -⟩⟩
    · rw [← ht.grantId] at hr
      refine tokenRows_ok hsha rfl ?_ r hr
      intro e he token' t' hrot
      rcases List.mem_append.1 he with he | he
      · obtain ⟨e', he', t'', ht'', rfl⟩ := (h.events e he).rotated token' t' hrot
        exact hnew e' he' t'' ht''
      · rw [List.mem_singleton.1 he] at hrot
        cases hrot
        rw [← htoken]
        exact hnew e₁ he₁ t₁ ht₁
    · refine (h.tokens r hu).snoc ?_
      rintro - _ _ ⟨⟩ hsame
      exact absurd (hsame.trans hhash.symm) hne
    · obtain ⟨⟨e, he, hfrom⟩, -⟩ := h.tokens u hu
      exact ⟨⟨e, hsub he, hfrom⟩, fun _ _ _ _ _ _ _ => rfl⟩
  · rintro e he t' ht' ⟨g', hg', hid'⟩ hvalid
    rw [htokens]
    rcases List.mem_append.1 he with he | he
    · rw [hgrants] at hg'
      obtain ⟨r, hr, hk, hgrant, hrhash, hexp⟩ := h.kept e he t' ht' ⟨g', hg', hid'⟩ hvalid
      refine ⟨if r.tokenHash = row.tokenHash then { r with usedAt := some now } else r,
        List.mem_append_left _ (mem_deleteWhere.2 ⟨mem_updateWhere.2 ⟨r, hr, by simp⟩, ?_⟩), ?_⟩
      · simp only at hvalid
        split <;> simp [hexp] <;> omega
      · split
        · exact ⟨hk, hgrant, hrhash, hexp⟩
        · exact ⟨hk, hgrant, hrhash, hexp⟩
    · rw [List.mem_singleton.1 he] at ht' ⊢
      cases ht'
      exact ⟨_, List.mem_append_right _ (List.mem_cons_of_mem _ (List.mem_singleton_self _)), rfl,
        ht.grantId.symm, rfl, rfl⟩
  · -- The only refresh token of the grant that was not traded in now is.
    have hother : ∀ u ∈ db.tokens, u.kind = .refresh → u.usedAt = none →
        u.tokenHash ≠ row.tokenHash → u.grantId ≠ g.id := by
      intro u hu hk hfree hne hgrant
      have := h.live u hu row hrow hk hkind hfree hunused (hgrant.trans hid)
      exact hne (by rw [this])
    intro r hr r' hr' hk hk' hu hu' hgrant
    rcases hold r hr with hr | ⟨u, hmem, ⟨rfl, hne⟩ | ⟨rfl, -⟩⟩
    · rcases hold r' hr' with hr' | ⟨u', hmem', ⟨rfl, hne'⟩ | ⟨rfl, -⟩⟩
      · exact tokenRows_refresh hr hr' hk hk'
      · rw [mem_tokenRows_grantId hr] at hgrant
        exact absurd hgrant.symm (hother r' hmem' hk' hu' hne')
      · cases hu'
    · rcases hold r' hr' with hr' | ⟨u', hmem', ⟨rfl, hne'⟩ | ⟨rfl, -⟩⟩
      · rw [mem_tokenRows_grantId hr'] at hgrant
        exact absurd hgrant (hother r hmem hk hu hne)
      · exact h.live r hmem r' hmem' hk hk' hu hu' hgrant
      · cases hu'
    · cases hu

/-- **Every request keeps the invariant.** -/
theorem inv_step [DecidableEq D] {w : World D} {r : Int × Op} (h : Inv x w) (hr : w.Takes [r]) :
    Inv x (w.step x r) := by
  obtain ⟨db, log, now₀⟩ := w
  obtain ⟨now, op⟩ := r
  have hnow : now₀ ≤ now := hr.le
  have hfresh : (World.drawn ⟨db, log, now₀⟩ ++ op.draws).Nodup := hr.new
  have h' : Inv x ⟨db, log, now⟩ := h.less hnow (.refl h.backed)
  unfold World.step
  simp only
  have hdid := @did_perform _ x _ now _ h.backed op
  generalize hans : (perform x now op db).1 = answer at hdid
  generalize hdb : (perform x now op db).2 = db' at hdid
  cases hdid with
  | less hquiet hless =>
    obtain ⟨-, hredeemed, hrotated, hissued⟩ := Event.quiet (e := ⟨_, _, _⟩) hquiet
    exact (h'.less le_rfl hless).logged hfresh (.of_quiet hquiet) hredeemed hrotated hissued
  | @made new random db₁ _ hless hcodes hfree hrest =>
    have h₁ := (h'.less le_rfl hless).less le_rfl hrest
    have := @Inv.made _ _ _ _ _ hsha new random h₁ hfresh hfree
    rwa [show ({ db' with codes := db₁.codes ++
      [new.row (tokenHash x "oauth-code" (newToken codePrefix random)) now] } : Db D) = db' by
        rw [← hcodes]] at this
  | redeemed hc hhash hok ht hcodes hgrants hwater htokens hunique hclients hclient =>
    exact h'.redeemed hsha hfresh (.redeemed hc hhash hok ht hcodes hgrants hwater htokens hunique hclients hclient)
  | rotated hrow hhash hkind hunused hvalid hg hid ht hcodes hgrants hwater htokens hunique hclients =>
    exact h'.rotated hsha hfresh (.rotated hrow hhash hkind hunused hvalid hg hid ht hcodes hgrants hwater htokens hunique
      hclients)

end Preserved

/-! ## 3. What comes back -/

section Ended

variable {w : World D} {id : Int}

theorem Event.Apart.symm {e e' : Event} (h : e.Apart e') : e'.Apart e := by
  intro code t code' t' ht ht'
  obtain ⟨hcode, hid⟩ := h code' t' code t ht' ht
  exact ⟨hcode.symm, hid.symm⟩

/-- A code that was handed out was made once. -/
theorem Inv.made_unique {code : String} {new new' : NewOauthCode} (h : Inv x w) {e e' : Event}
    (he : e ∈ w.log) (he' : e' ∈ w.log) (hm : e.made = some (code, new))
    (hm' : e'.made = some (code, new')) : new = new' := by
  obtain ⟨r, hr, rfl⟩ := (h.events e he).made _ _ hm
  obtain ⟨r', hr', hsame⟩ := (h.events e' he').made _ _ hm'
  have : e = e' := same_event h.fresh he he' hr (newToken_inj hsame ▸ hr')
  subst this
  rw [hm] at hm'
  exact (Prod.mk.inj (Option.some.inj hm')).2

/-- A grant comes from one code. -/
theorem Inv.origin_unique {new new' : NewOauthCode} (h : Inv x w) (ho : Origin w.log id new)
    (ho' : Origin w.log id new') : new = new' := by
  obtain ⟨e, he, code, t, hr, hid, e₁, he₁, hm⟩ := ho
  obtain ⟨e', he', code', t', hr', hid', e₁', he₁', hm'⟩ := ho'
  have hsame : e = e' := by
    by_contra hne
    have : Std.Symm Event.Apart := ⟨fun _ _ h => h.symm⟩
    exact (h.apart.forall he he' hne code t code' t' hr hr').2 (hid.trans hid'.symm)
  subst hsame
  rw [hr] at hr'
  cases hr'
  exact h.made_unique he₁ he₁' hm hm'

/-- A refresh token was handed out by one answer. -/
theorem Inv.refresh_unique (h : Inv x w) {e e' : Event} {t t' : OauthTokens} (he : e ∈ w.log)
    (he' : e' ∈ w.log) (ht : e.issued = some t) (ht' : e'.issued = some t')
    (hsame : t.refreshToken = t'.refreshToken) : t = t' := by
  obtain ⟨r, hr, hfrom⟩ := (h.events e he).refresh t ht
  obtain ⟨r', hr', hfrom'⟩ := (h.events e' he').refresh t' ht'
  have hdraw : r = r' := newToken_inj (hfrom.symm.trans (hsame.trans hfrom'))
  have : e = e' := same_event h.fresh he he' hr (hdraw ▸ hr')
  subst this
  exact Option.some.inj (ht.symm.trans ht')

/-- So was an access token. -/
theorem Inv.access_unique (h : Inv x w) {e e' : Event} {t t' : OauthTokens} (he : e ∈ w.log)
    (he' : e' ∈ w.log) (ht : e.issued = some t) (ht' : e'.issued = some t')
    (hsame : t.accessToken = t'.accessToken) : t = t' := by
  obtain ⟨r, hr, hfrom⟩ := (h.events e he).access t ht
  obtain ⟨r', hr', hfrom'⟩ := (h.events e' he').access t' ht'
  have hdraw : r = r' := newToken_inj (hfrom.symm.trans (hsame.trans hfrom'))
  have : e = e' := same_event h.fresh he he' hr (hdraw ▸ hr')
  subst this
  exact Option.some.inj (ht.symm.trans ht')

theorem startsWith_newToken (pre random : String) : startsWith (newToken pre random) pre = true := by
  rw [startsWith, newToken, String.toList_append, List.isPrefixOf_iff_prefix]
  exact List.prefix_append _ _

/-- What a look-up of a token finds is its row, when the row's grant stands. -/
theorem tokenOf_eq [DecidableEq D] {db : Db D} {r : Token D} {g : Grant} {p : Token D → Bool}
    (hb : Backed db) (hu : UniqueKey Token.tokenHash db.tokens) (hr : r ∈ db.tokens)
    (hp : p r = true) (hg : g ∈ db.grants) (hid : g.id = r.grantId) :
    ∃ c, db.tokenOf r.tokenHash p = some (r, g, c) := by
  have htoken : (db.tokens.find? fun t => t.tokenHash == r.tokenHash && p t) = some r := by
    cases hf : db.tokens.find? fun t => t.tokenHash == r.tokenHash && p t with
    | none => exact absurd (List.find?_eq_none.1 hf r hr) (by simp [hp])
    | some r' =>
      have := List.find?_some hf
      simp only [Bool.and_eq_true, beq_iff_eq] at this
      rw [hu.eq (List.mem_of_find?_eq_some hf) hr this.1]
  have hgrant : (db.grants.find? fun g' => g'.id == r.grantId) = some g := by
    rw [← hid]
    exact hb.grantIds.find?_eq hg
  obtain ⟨c, hc, hcid⟩ := hb.grants g hg
  obtain ⟨c', hc'⟩ : ∃ c', (db.clients.find? fun c => c.id == g.clientId) = some c' := by
    rw [← Option.isSome_iff_exists, List.find?_isSome]
    exact ⟨c, hc, by simpa using hcid⟩
  exact ⟨c', by simp [Db.tokenOf, htoken, hgrant, hc']⟩

/-- A refresh brings no grant, and hands tokens out for one that stands. -/
theorem refresh_grants [DecidableEq D] {db : Db D} {now client : Int} {token first second : String}
    (hb : Backed db) :
    let done := perform x now (.refresh token client first second) db
    done.2.grants ⊆ db.grants ∧ ∀ t, Event.issued ⟨now, .refresh token client first second, done.1⟩ =
      some t → ∃ g ∈ done.2.grants, g.id = t.grantId := by
  intro done
  have hdid : Did x now db (.refresh token client first second) done.1 done.2 := did_perform hb _
  clear_value done
  obtain ⟨answer, db'⟩ := done
  cases hdid with
  | less hquiet hless =>
    refine ⟨hless.grants.subset, ?_⟩
    intro t ht
    rw [(Event.quiet (e := ⟨now, _, answer⟩) hquiet).2.2.2] at ht
    cases ht
  | rotated _ _ _ _ _ hg _ ht _ hgrants =>
    refine ⟨hgrants ▸ List.Subset.refl _, ?_⟩
    rintro t ⟨⟩
    exact ⟨_, hgrants ▸ hg, ht.grantId.symm⟩

/-- **A refresh token that was traded in and comes back ends its grant.** -/
theorem Inv.reuse [DecidableEq D] (h : Inv x w) {e e' : Event} {t t' : OauthTokens}
    {new : NewOauthCode} {now : Int} (he : e ∈ w.log) (ht : e.issued = some t)
    (ho : Origin w.log t.grantId new) (he' : e' ∈ w.log)
    (hrot : e'.rotated = some (t.refreshToken, t')) (hnow : w.now ≤ now)
    (hvalid : now < e.now + oauthRefreshTokenSecs) (first second : String) :
    ∀ g ∈ (perform x now (.refresh t.refreshToken new.clientId first second) w.db).2.grants,
      g.id ≠ t.grantId := by
  by_cases hstands : ∃ g ∈ w.db.grants, g.id = t.grantId
  · obtain ⟨g, hg, hid⟩ := hstands
    obtain ⟨r, hr, hkind, hgrant, hhash, -⟩ := h.kept e he t ht ⟨g, hg, hid⟩ (by omega)
    obtain ⟨d, -, hfrom⟩ := (h.events e he).refresh t ht
    have hstart : startsWith t.refreshToken refreshPrefix = true := by
      rw [hfrom]
      exact startsWith_newToken _ _
    obtain ⟨c, hfound⟩ := tokenOf_eq (p := fun t => t.kind == .refresh) h.backed h.tokenHashes hr
      (by simp [hkind]) hg (hid.trans hgrant.symm)
    rw [hhash] at hfound
    have hused : r.usedAt.isSome = true := (h.tokens r hr).2 hkind e' he' _ _ hrot hhash
    have hclient : g.clientId = new.clientId := by
      obtain ⟨-, new', ho', -, hc⟩ := h.grants g hg
      rw [hc, h.origin_unique ho' (hid ▸ ho)]
    have : perform x now (.refresh t.refreshToken new.clientId first second) w.db =
        (.refused (.reused g.accountId c.name), w.db.forgetGrant g.id) := by
      simp [perform, refreshOauth, hstart, hfound, hclient, hused, settle, Answer.ofTrade]
    rw [this, ← hid]
    exact forgetGrant_gone _ _
  · intro g hg hid
    exact hstands ⟨g, (refresh_grants h.backed).1 hg, hid⟩

/-- No grant of this id comes again, and nothing is handed out for it. -/
theorem Inv.gone_step [DecidableEq D] (h : Inv x w) {now : Int} {op : Op}
    (hgone : ∀ g ∈ w.db.grants, g.id ≠ id) (hle : id ≤ w.db.grantHighWater) :
    (∀ g ∈ (perform x now op w.db).2.grants, g.id ≠ id) ∧
      id ≤ (perform x now op w.db).2.grantHighWater ∧
      ∀ t, Event.issued ⟨now, op, (perform x now op w.db).1⟩ = some t → t.grantId ≠ id := by
  have hdid := @did_perform _ x _ now _ h.backed op
  generalize (perform x now op w.db).1 = answer at hdid
  generalize (perform x now op w.db).2 = db' at hdid
  cases hdid with
  | less hquiet hless =>
    refine ⟨fun g hg => hgone g (hless.grants.subset hg), hle.trans hless.highWater.ge, ?_⟩
    intro t ht
    rw [(Event.quiet (e := ⟨now, op, answer⟩) hquiet).2.2.2] at ht
    cases ht
  | made hless hcodes hfree hrest =>
    refine ⟨fun g hg => hgone g (hless.grants.subset (hrest.grants.subset hg)), ?_, ?_⟩
    · exact hle.trans (hless.highWater.ge.trans hrest.highWater.ge)
    · rintro t ⟨⟩
  | redeemed hc hhash hok ht hcodes hgrants hwater =>
    refine ⟨?_, by omega, ?_⟩
    · intro g hg
      rw [hgrants] at hg
      rcases List.mem_append.1 hg with hg | hg
      · exact hgone g hg
      · rw [List.mem_singleton.1 hg]
        simp only
        omega
    · rintro t ⟨⟩
      rw [ht.grantId]
      omega
  | rotated hrow hhash hkind hunused hnow hg hid ht hcodes hgrants hwater =>
    refine ⟨hgrants ▸ hgone, hle.trans hwater.ge, ?_⟩
    rintro t ⟨⟩
    rw [ht.grantId]
    exact hgone _ hg

/-- The grant is over: it has no row, and no answer after the first `since` ones handed out a token
for it. -/
structure Ended (since : Nat) (id : Int) (w : World D) : Prop where
  gone : ∀ g ∈ w.db.grants, g.id ≠ id
  silent : ∀ e ∈ w.log.drop since, ∀ t, e.issued = some t → t.grantId ≠ id

theorem run_ended [DecidableEq D] (hsha : x.sha256.Injective) {since : Nat} {rs : List (Int × Op)}
    (h : Inv x w) (hended : Ended since id w) (hle : id ≤ w.db.grantHighWater)
    (hsince : since ≤ w.log.length) (hrs : w.Takes rs) : Ended since id (w.run x rs) := by
  have hall : Inv x (w.run x rs) ∧ Ended since id (w.run x rs) ∧
      id ≤ (w.run x rs).db.grantHighWater ∧ since ≤ (w.run x rs).log.length := by
    refine run_preserves (P := fun w => Inv x w ∧ Ended since id w ∧ id ≤ w.db.grantHighWater ∧
      since ≤ w.log.length) ?_ ⟨h, hended, hle, hsince⟩ hrs
    rintro w r ⟨h, hended, hle, hsince⟩ hr
    obtain ⟨hgone, hle', hsilent⟩ := @Inv.gone_step _ _ _ _ _ h r.1 r.2 hended.gone hle
    refine ⟨inv_step hsha h hr, ⟨hgone, ?_⟩, hle', ?_⟩
    · intro e he
      rw [step_log, List.drop_append_of_le_length hsince] at he
      rcases List.mem_append.1 he with he | he
      · exact hended.silent e he
      · rw [List.mem_singleton.1 he]
        exact hsilent
    · rw [step_log, List.length_append]
      omega
  exact hall.2.1

/-- A token that no longer opens anything. -/
def Dead [DecidableEq D] (x : Crypto D) (db : Db D) (token : String) : Prop :=
  (∀ now scope orMasked protocol,
    authenticateOauthWithin x now token scope orMasked protocol db = .error .invalid) ∧
  ∀ now client first second,
    refreshOauth x now token client first second db = .ok (.error .invalidGrant, db)

/-- **The tokens of a grant that is over are dead.** -/
theorem Inv.dead [DecidableEq D] (hsha : x.sha256.Injective) (h : Inv x w)
    (hgone : ∀ g ∈ w.db.grants, g.id ≠ id) {e : Event} (he : e ∈ w.log)
    (ht : e.issued = some t) (hid : t.grantId = id) :
    Dead x w.db t.accessToken ∧ Dead x w.db t.refreshToken := by
  obtain ⟨a, -, haccess⟩ := (h.events e he).access t ht
  obtain ⟨d, -, hrefresh⟩ := (h.events e he).refresh t ht
  -- No row of these tokens is left: a row's grant stands.
  have hno : ∀ r ∈ w.db.tokens, ∀ t', t'.grantId = r.grantId → t ≠ t' := by
    rintro r hr t' hgrant rfl
    obtain ⟨g, hg, hgid⟩ := h.backed.tokens r hr
    exact hgone g hg (hgid.trans (hgrant.symm.trans hid))
  refine ⟨⟨?_, ?_⟩, ?_, ?_⟩
  · intro now scope orMasked protocol
    have hnone : (w.db.tokens.find? fun r =>
        r.tokenHash == tokenHash x "oauth-access" t.accessToken && r.kind == .access) = none := by
      rw [List.find?_eq_none]
      intro r hr hhash
      simp only [Bool.and_eq_true, beq_iff_eq] at hhash
      obtain ⟨⟨e', he', t', ht', hgrant, hfrom⟩, -⟩ := h.tokens r hr
      rw [hhash.2, hhash.1] at hfrom
      exact hno r hr t' hgrant (h.access_unique he he' ht ht' (tokenHash_inj hsha hfrom))
    simp [authenticateOauthWithin, hnone]
  · intro now client first second
    have : startsWith t.accessToken refreshPrefix = false := by
      rw [haccess, startsWith, newToken, String.toList_append]
      rfl
    simp [refreshOauth, this]
  · intro now scope orMasked protocol
    have : startsWith t.refreshToken accessPrefix = false := by
      rw [hrefresh, startsWith, newToken, String.toList_append]
      rfl
    simp [authenticateOauthWithin, isOauthAccessToken, this]
  · intro now client first second
    have hnone : w.db.tokenOf (tokenHash x "oauth-refresh" t.refreshToken) (·.kind == .refresh) =
        none := by
      rw [Option.eq_none_iff_forall_ne_some]
      rintro ⟨r, g, c⟩ hfound
      obtain ⟨hr, hhash, hkind, -⟩ := tokenOf_some hfound
      obtain ⟨⟨e', he', t', ht', hgrant, hfrom⟩, -⟩ := h.tokens r hr
      rw [show r.kind = .refresh by simpa using hkind, hhash] at hfrom
      exact hno r hr t' hgrant (h.refresh_unique he he' ht ht' (tokenHash_inj hsha hfrom))
    simp [refreshOauth, hnone]

end Ended

/-! ## 4. The result -/

/-- Nobody has signed in with OAuth yet. -/
def World.start (accounts : List Account) (now : Int) : World D := { db := { accounts }, now }

theorem inv_start (accounts : List Account) (now : Int) : Inv x (World.start accounts now) := by
  refine ⟨⟨.nil, ?_, ?_⟩, .nil, .nil, List.nodup_nil, ?_, ?_, .nil, ?_, ?_, ?_, ?_, ?_⟩ <;>
    simp [World.start]

theorem inv_run [DecidableEq D] (hsha : x.sha256.Injective) {w : World D} {rs : List (Int × Op)}
    (h : Inv x w) (hrs : w.Takes rs) : Inv x (w.run x rs) :=
  run_preserves (fun _ _ => inv_step hsha) h hrs

/-- Whether the code was traded in by this answer. -/
def Event.redeems (code : String) (e : Event) : Bool := (e.redeemed.map Prod.fst) == some code

theorem countP_redeems_le {log : List Event} (h : log.Pairwise Event.Apart) (code : String) :
    log.countP (Event.redeems code) ≤ 1 := by
  rw [List.countP_eq_length_filter]
  have hsub := h.sublist (List.filter_sublist (p := Event.redeems code))
  have hall : ∀ e ∈ log.filter (Event.redeems code), e.redeems code = true :=
    fun e he => (List.mem_filter.1 he).2
  match hl : log.filter (Event.redeems code) with
  | [] => simp
  | [e] => simp
  | e :: e' :: l =>
    rw [hl] at hsub hall
    have hcode : ∀ e'' ∈ e :: e' :: l, ∃ t, e''.redeemed = some (code, t) := by
      intro e'' he''
      simpa [Event.redeems, Option.map_eq_some_iff] using hall e'' he''
    obtain ⟨t, ht⟩ := hcode e (by simp)
    obtain ⟨t', ht'⟩ := hcode e' (by simp)
    exact absurd rfl ((List.pairwise_cons.1 hsub).1 e' (by simp) code t code t' ht ht').1

/-- A refresh token that is neither used nor expired. -/
def Token.isLive (id now : Int) (r : Token D) : Bool :=
  r.grantId == id && r.kind == .refresh && r.usedAt.isNone && decide (now < r.expiresAt)

theorem Inv.countP_live_le {w : World D} (h : Inv x w) (id now : Int) :
    w.db.tokens.countP (Token.isLive id now) ≤ 1 := by
  have hlive : ∀ r ∈ w.db.tokens.filter (Token.isLive id now), r ∈ w.db.tokens ∧ r.grantId = id ∧
      r.kind = .refresh ∧ r.usedAt = none := by
    intro r hr
    obtain ⟨hr, hp⟩ := List.mem_filter.1 hr
    simp only [Token.isLive, Bool.and_eq_true, beq_iff_eq, Option.isNone_iff_eq_none] at hp
    exact ⟨hr, hp.1.1.1, hp.1.1.2, hp.1.2⟩
  rw [List.countP_eq_length_filter]
  have hnodup : (w.db.tokens.filter (Token.isLive id now)).Nodup := h.tokenHashes.nodup.filter _
  match hl : w.db.tokens.filter (Token.isLive id now) with
  | [] => simp
  | [r] => simp
  | r :: r' :: l =>
    rw [hl] at hlive hnodup
    obtain ⟨hr, hid, hk, hu⟩ := hlive r (by simp)
    obtain ⟨hr', hid', hk', hu'⟩ := hlive r' (by simp)
    have := h.live r hr r' hr' hk hk' hu hu' (hid.trans hid'.symm)
    exact absurd (this ▸ List.mem_cons_self) (List.nodup_cons.1 hnodup).1

/-- **Codes are traded in once, and rotation notices a copy.**  After any requests at nondecreasing
times, with fresh random parts:

- a code was traded in at most once, and then by its own app, to its own redirect address, with the
  verifier behind its challenge, before it ran out;
- a grant, and every token handed out for it, has the scopes of the code it came from;
- a grant has at most one refresh token that is neither used nor expired;
- when a refresh token that was traded in and has not run out is presented by its own app, its grant
  is over from then on, whatever comes next: nothing is handed out for it, its id is given to no other
  grant, and every token ever handed out for it is dead. -/
theorem codes_and_rotation [DecidableEq D] {x : Crypto D} (hsha : x.sha256.Injective)
    (accounts : List Account) (now : Int) (rs : List (Int × Op))
    (hrs : (World.start accounts now : World D).Takes rs) :
    let w := (World.start accounts now).run x rs
    (∀ code, w.log.countP (Event.redeems code) ≤ 1) ∧
    (∀ e ∈ w.log, ∀ code t, e.redeemed = some (code, t) → e.Earned x w.log code) ∧
    (∀ g ∈ w.db.grants, (∃ new, Origin w.log g.id new) ∧
      ∀ new, Origin w.log g.id new → g.scopes = scopeList new.scopes) ∧
    (∀ e ∈ w.log, ∀ t, e.issued = some t → (∃ new, Origin w.log t.grantId new) ∧
      ∀ new, Origin w.log t.grantId new → t.scopes = splitWhitespace (scopeList new.scopes)) ∧
    (∀ id at', w.db.tokens.countP (Token.isLive id at') ≤ 1) ∧
    ∀ e ∈ w.log, ∀ t new, e.issued = some t → Origin w.log t.grantId new →
      ∀ e' ∈ w.log, ∀ t', e'.rotated = some (t.refreshToken, t') →
      ∀ at' first second rs', at' < e.now + oauthRefreshTokenSecs →
      w.Takes ((at', .refresh t.refreshToken new.clientId first second) :: rs') →
      let w' := w.run x ((at', .refresh t.refreshToken new.clientId first second) :: rs')
      Ended w.log.length t.grantId w' ∧
        ∀ e'' ∈ w'.log, ∀ t'', e''.issued = some t'' → t''.grantId = t.grantId →
          Dead x w'.db t''.accessToken ∧ Dead x w'.db t''.refreshToken := by
  have h : Inv x ((World.start accounts now).run x rs) := inv_run hsha (inv_start accounts now) hrs
  refine ⟨countP_redeems_le h.apart, fun e he => (h.events e he).earned, ?_, ?_, h.countP_live_le, ?_⟩
  · intro g hg
    obtain ⟨-, new, ho, hs, -⟩ := h.grants g hg
    exact ⟨⟨new, ho⟩, fun new' ho' => h.origin_unique ho ho' ▸ hs⟩
  · intro e he t ht
    obtain ⟨-, new, ho, hs⟩ := (h.events e he).grant t ht
    exact ⟨⟨new, ho⟩, fun new' ho' => h.origin_unique ho ho' ▸ hs⟩
  · intro e he t new ht ho e' he' t' hrot at' first second rs' hvalid hrs'
    have hfirst : ((World.start accounts now).run x rs).Takes
        [(at', .refresh t.refreshToken new.clientId first second)] :=
      ⟨by simpa using hrs'.le, by simpa using hrs'.new⟩
    have h₁ := inv_step hsha h hfirst
    have hgone := h.reuse he ht ho he' hrot hrs'.le hvalid first second
    have hended : Ended ((World.start accounts now).run x rs).log.length t.grantId
        (((World.start accounts now).run x rs).step x
          (at', .refresh t.refreshToken new.clientId first second)) := by
      refine ⟨hgone, ?_⟩
      intro e'' he'' t'' ht''
      rw [step_log, List.drop_left, List.mem_singleton] at he''
      subst he''
      obtain ⟨g, hg, hid⟩ := (refresh_grants h.backed).2 t'' ht''
      rw [← hid]
      exact hgone g hg
    have hend := run_ended hsha h₁ hended ?_ ?_ hrs'.tail
    · refine ⟨hend, ?_⟩
      intro e'' he'' t'' ht'' hid
      exact (inv_run hsha h₁ hrs'.tail).dead hsha hend.gone he'' ht'' hid
    · exact (h₁.events e (by simp [he])).grant t ht |>.1
    · simp

/-! A phone signs in, trades its refresh token in, and then somebody presents the old one. -/

def phoneVerifier : String := "dBjftJeZ4CVP-mB92K27uhbUJU1p1r_wW1gFWFOEjXk"

/-- Digests that are the texts themselves, with the challenge of the phone's verifier. -/
def phoneCrypto : Crypto String where
  sha256 := id
  base64url d := if d = phoneVerifier then "E9Melhoa2OwvFrEMTJguCHaoeK1t8URWbuGJSstw-cM" else d

def phoneAccount : Account :=
  { id := 1, login := "mini", displayName := "Mini", role := .user, quotaBytes := 0 }

def phoneCode : NewOauthCode where
  clientId := 1
  accountId := 1
  redirectUri := "http://127.0.0.1/"
  scopes := ["openid", "mail"]
  codeChallenge := "E9Melhoa2OwvFrEMTJguCHaoeK1t8URWbuGJSstw-cM"
  nonce := none
  authTime := 5

def phoneRequests : List (Int × Op) :=
  [(5, .register "uwu-phone" "Phone"), (10, .createCode phoneCode "c"),
   (20, .redeem "uwu_ac_c" 1 "http://127.0.0.1/" phoneVerifier "a1" "r1"),
   (30, .refresh "uwu_rt_r1" 1 "a2" "r2")]

def phoneTokens : OauthTokens where
  accessToken := "uwu_at_a1"
  refreshToken := "uwu_rt_r1"
  scopes := ["openid", "mail"]
  account := phoneAccount
  grantId := 1
  newGrant := true
  nonce := none
  authTime := 5
  clientName := "Phone"

def phoneNextTokens : OauthTokens :=
  { phoneTokens with
    accessToken := "uwu_at_a2", refreshToken := "uwu_rt_r2", newGrant := false, authTime := 20 }

def phoneMade : Event := ⟨10, .createCode phoneCode "c", .code "uwu_ac_c"⟩

def phoneRedeemed : Event :=
  ⟨20, .redeem "uwu_ac_c" 1 "http://127.0.0.1/" phoneVerifier "a1" "r1", .tokens phoneTokens⟩

def phoneRotated : Event := ⟨30, .refresh "uwu_rt_r1" 1 "a2" "r2", .tokens phoneNextTokens⟩

theorem codes_and_rotation_phone :
    Dead phoneCrypto (((World.start [phoneAccount] 0).run phoneCrypto phoneRequests).run phoneCrypto
      [(40, .refresh "uwu_rt_r1" 1 "a3" "r3")]).db "uwu_at_a2" := by
  have hlog : ((World.start [phoneAccount] 0).run phoneCrypto phoneRequests).log =
      [⟨5, .register "uwu-phone" "Phone", .done⟩, phoneMade, phoneRedeemed, phoneRotated] := by
    decide
  obtain ⟨-, -, -, -, -, hreuse⟩ := codes_and_rotation (x := phoneCrypto) Function.injective_id
    [phoneAccount] 0 phoneRequests ⟨by decide, by decide⟩
  rw [hlog] at hreuse
  have horigin : Origin [⟨5, .register "uwu-phone" "Phone", .done⟩, phoneMade, phoneRedeemed, phoneRotated]
      phoneTokens.grantId phoneCode :=
    ⟨phoneRedeemed, by simp, "uwu_ac_c", phoneTokens, rfl, rfl, phoneMade, by simp, rfl⟩
  obtain ⟨-, hdead⟩ := hreuse phoneRedeemed (by simp) phoneTokens phoneCode rfl horigin phoneRotated
    (by simp) phoneNextTokens rfl 40 "a3" "r3" [] (by decide) ⟨by decide, by decide⟩
  refine (hdead phoneRotated ?_ phoneNextTokens rfl rfl).1
  rw [run_cons, run_nil, step_log, hlog]
  simp

end UwuMail.Oauth
