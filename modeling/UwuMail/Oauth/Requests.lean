/-
# Requests to the OAuth tables, and what each can do

The OAuth tables under any sequence of requests by any apps: codes are made and traded in, refresh
tokens are traded in for the next ones, tokens and grants are revoked, apps register, and accounts
come, go and lose the right to sign in.  `World` keeps beside the tables the LOG of what was asked
and answered, so that a statement about every code or token ever handed out is one about the log.

`did_perform` says what a request can do, once: it only takes rows away (`Less`: purging, revoking,
whatever is refused), or it adds a code, or a grant with its first tokens, or the next two tokens of
a grant.  Nothing after it unfolds a transaction again.
-/
import UwuMail.Oauth.Tokens

namespace UwuMail.Oauth

open Store (StoreError)
open Directory (check check_ok nextRowId)
open Table

variable {D : Type} {x : Crypto D}

/-! ## 1. Requests and their log -/

/-- What can come next.  The last arguments of the requests that make tokens are the random
parts. -/
inductive Op
  | register (clientId name : String)
  | createCode (new : NewOauthCode) (random : String)
  | redeem (code : String) (clientId : Int) (redirectUri verifier access refresh : String)
  | refresh (token : String) (clientId : Int) (access refresh : String)
  | revokeToken (token : String) (clientId : Int)
  | revokeGrant (accountId grantId : Int)
  | directory (accounts : List Account)
  deriving DecidableEq

/-- The random parts a request draws. -/
def Op.draws : Op → List String
  | .createCode _ random => [random]
  | .redeem _ _ _ _ first second => [first, second]
  | .refresh _ _ first second => [first, second]
  | _ => []

inductive Answer
  | code (code : String)
  | tokens (tokens : OauthTokens)
  | refused (r : OauthRefusal)
  | done
  | error (e : StoreError)
  deriving DecidableEq

/-- A transaction that fails leaves the tables as they were. -/
def settle {α : Type} (db : Db D) (f : α → Answer) : Except StoreError (α × Db D) → Answer × Db D
  | .ok (a, db') => (f a, db')
  | .error e => (.error e, db)

/-- The answer to an app that trades something in. -/
def Answer.ofTrade : Except OauthRefusal OauthTokens → Answer
  | .ok t => .tokens t
  | .error r => .refused r

/-- One request at a time `now`. -/
def perform [DecidableEq D] (x : Crypto D) (now : Int) (op : Op) (db : Db D) : Answer × Db D :=
  match op with
  | .register clientId name => settle db (fun _ => .done) (registerOauthClient now clientId name db)
  | .createCode new random => settle db .code (createOauthCode x now new random db)
  | .redeem code clientId uri verifier access refresh =>
    settle db .ofTrade (redeemOauthCode x now code clientId uri verifier access refresh db)
  | .refresh token clientId access refresh =>
    settle db .ofTrade (refreshOauth x now token clientId access refresh db)
  | .revokeToken token clientId => (.done, (revokeOauthToken x token clientId db).2)
  | .revokeGrant accountId grantId => settle db (fun _ => .done) (revokeOauthGrant accountId grantId db)
  | .directory accounts => (.done, db.withAccounts accounts)

structure Event where
  now : Int
  op : Op
  answer : Answer
  deriving DecidableEq

/-- A code that was handed out, and what for. -/
def Event.made (e : Event) : Option (String × NewOauthCode) :=
  match e.op, e.answer with
  | .createCode new _, .code code => some (code, new)
  | _, _ => none

/-- A code that was traded in. -/
def Event.redeemed (e : Event) : Option (String × OauthTokens) :=
  match e.op, e.answer with
  | .redeem code _ _ _ _ _, .tokens t => some (code, t)
  | _, _ => none

/-- A refresh token that was traded in. -/
def Event.rotated (e : Event) : Option (String × OauthTokens) :=
  match e.op, e.answer with
  | .refresh token _ _ _, .tokens t => some (token, t)
  | _, _ => none

/-- Tokens that were handed out. -/
def Event.issued (e : Event) : Option OauthTokens :=
  match e.answer with
  | .tokens t => some t
  | _ => none

structure World (D : Type) where
  db : Db D
  log : List Event := []
  now : Int

/-- A request and what it was answered. -/
def World.step [DecidableEq D] (x : Crypto D) (w : World D) (r : Int × Op) : World D :=
  let done := perform x r.1 r.2 w.db
  { db := done.2, log := w.log ++ [⟨r.1, r.2, done.1⟩], now := r.1 }

def World.run [DecidableEq D] (x : Crypto D) (w : World D) (rs : List (Int × Op)) : World D :=
    rs.foldl (·.step x) w

/-- The random parts drawn so far. -/
def World.drawn (w : World D) : List String := w.log.flatMap (·.op.draws)

/-- Requests that come at nondecreasing times and draw random parts nobody drew before. -/
structure World.Takes (w : World D) (rs : List (Int × Op)) : Prop where
  times : (w.now :: rs.map Prod.fst).Pairwise (· ≤ ·)
  fresh : (w.drawn ++ rs.flatMap fun r => r.2.draws).Nodup

section Requests

variable [DecidableEq D] {w : World D} {r : Int × Op} {rs rs' : List (Int × Op)}

@[simp] theorem run_nil : w.run x [] = w := rfl

@[simp] theorem run_cons : w.run x (r :: rs) = (w.step x r).run x rs := rfl

@[simp] theorem step_log : (w.step x r).log = w.log ++ [⟨r.1, r.2, (perform x r.1 r.2 w.db).1⟩] := rfl

@[simp] theorem step_drawn : (w.step x r).drawn = w.drawn ++ r.2.draws := by
  simp [World.drawn]

theorem World.Takes.tail (h : w.Takes (r :: rs)) : (w.step x r).Takes rs := by
  constructor
  · have := h.times
    rw [List.map_cons, List.pairwise_cons] at this
    exact this.2
  · have := h.fresh
    rw [List.flatMap_cons, ← List.append_assoc] at this
    rwa [step_drawn]

omit [DecidableEq D] in
theorem World.Takes.le (h : w.Takes (r :: rs)) : w.now ≤ r.1 :=
  (List.pairwise_cons.1 h.times).1 r.1 (by simp)

omit [DecidableEq D] in
theorem World.Takes.new (h : w.Takes (r :: rs)) : (w.drawn ++ r.2.draws).Nodup := by
  have := h.fresh
  rw [List.flatMap_cons, ← List.append_assoc] at this
  exact (List.nodup_append.1 this).1

/-- **The invariant rule** for requests. -/
theorem run_preserves {P : World D → Prop}
    (hstep : ∀ w r, P w → w.Takes [r] → P (w.step x r)) (h : P w) (hrs : w.Takes rs) :
    P (w.run x rs) := by
  induction rs generalizing w with
  | nil => exact h
  | cons r rs ih =>
    refine ih (hstep w r h ⟨?_, ?_⟩) hrs.tail
    · simpa using hrs.le
    · simpa using hrs.new

end Requests

/-! ## 2. Requests that only take rows away -/

/-- What the tables must hold for a row to be found from what refers to it. -/
structure Backed (db : Db D) : Prop where
  grantIds : UniqueKey Grant.id db.grants
  tokens : ∀ t ∈ db.tokens, ∃ g ∈ db.grants, g.id = t.grantId
  grants : ∀ g ∈ db.grants, ∃ c ∈ db.clients, c.id = g.clientId

/-- Codes, grants and tokens went and none came.  A token that has not run out goes only with its
grant. -/
structure Less (now : Int) (db db' : Db D) : Prop where
  codes : db'.codes.Sublist db.codes
  grants : db'.grants.Sublist db.grants
  tokens : db'.tokens.Sublist db.tokens
  highWater : db'.grantHighWater = db.grantHighWater
  kept : ∀ t ∈ db.tokens, now < t.expiresAt → (∃ g ∈ db'.grants, g.id = t.grantId) → t ∈ db'.tokens
  tokensBacked : ∀ t ∈ db'.tokens, ∃ g ∈ db'.grants, g.id = t.grantId
  grantsBacked : ∀ g ∈ db'.grants, ∃ c ∈ db'.clients, c.id = g.clientId

section Less

variable {now : Int} {db db' db'' : Db D}

theorem Less.backed (h : Less now db db') (hb : Backed db) : Backed db' :=
  ⟨hb.grantIds.sublist h.grants, h.tokensBacked, h.grantsBacked⟩

theorem Less.refl (h : Backed db) : Less now db db :=
  ⟨.refl _, .refl _, .refl _, rfl, fun _ ht _ _ => ht, h.tokens, h.grants⟩

theorem Less.trans (h : Less now db db') (h' : Less now db' db'') : Less now db db'' where
  codes := h'.codes.trans h.codes
  grants := h'.grants.trans h.grants
  tokens := h'.tokens.trans h.tokens
  highWater := h'.highWater.trans h.highWater
  kept := by
    rintro t ht hnow ⟨g, hg, hid⟩
    exact h'.kept t (h.kept t ht hnow ⟨g, h'.grants.subset hg, hid⟩) hnow ⟨g, hg, hid⟩
  tokensBacked := h'.tokensBacked
  grantsBacked := h'.grantsBacked

theorem less_deleteGrants (p : Grant → Bool) (h : Backed db) : Less now db (db.deleteGrants p) where
  codes := .refl _
  grants := deleteWhere_sublist _ _
  tokens := deleteWhere_sublist _ _
  highWater := rfl
  kept := by
    rintro t ht - ⟨g, hg, hid⟩
    obtain ⟨hg, hp⟩ := mem_deleteWhere.1 hg
    refine mem_deleteWhere.2 ⟨ht, ?_⟩
    rw [List.any_eq_false]
    rintro g' hg' hgone
    simp only [Bool.and_eq_true, beq_iff_eq] at hgone
    have : g' = g := h.grantIds.eq hg' hg (hgone.2.trans hid.symm)
    rw [this, hp] at hgone
    exact absurd hgone.1 (by simp)
  tokensBacked := by
    intro t ht
    obtain ⟨ht, hno⟩ := mem_deleteWhere.1 ht
    obtain ⟨g, hg, hid⟩ := h.tokens t ht
    refine ⟨g, mem_deleteWhere.2 ⟨hg, ?_⟩, hid⟩
    have := List.any_eq_false.1 hno g hg
    simpa [hid] using this
  grantsBacked := by
    intro g hg
    exact h.grants g (mem_deleteWhere.1 hg).1

/-- Deleting codes and consents, and making the accounts others, is no matter of the grants. -/
theorem less_codes (h : Backed db) {codes : List (Code D)} (hc : codes.Sublist db.codes)
    (accounts : List Account) (consents : List Consent) :
    Less now db { db with accounts, codes, consents } :=
  ⟨hc, .refl _, .refl _, rfl, fun _ ht _ _ => ht, h.tokens, h.grants⟩

theorem less_withAccounts (h : Backed db) (accounts : List Account) :
    Less now db (db.withAccounts accounts) :=
  have hcodes := less_codes h (deleteWhere_sublist (fun c => !accounts.any fun a => a.id == c.accountId)
    db.codes) accounts (deleteWhere (fun c => !accounts.any fun a => a.id == c.accountId) db.consents)
  hcodes.trans (less_deleteGrants _ (hcodes.backed h))

/-- The apps that go take their grants along. -/
theorem less_deleteClients (p : Client → Bool) (h : Backed db) :
    Less now db (db.deleteClients p) := by
  let gone := fun id => db.clients.any fun c => p c && c.id == id
  have hgrants : Less now db (db.deleteGrants fun g => gone g.clientId) := less_deleteGrants _ h
  refine ⟨deleteWhere_sublist _ _, hgrants.grants, hgrants.tokens, rfl, hgrants.kept,
    hgrants.tokensBacked, ?_⟩
  intro g hg
  obtain ⟨hg, hno⟩ := mem_deleteWhere.1 hg
  obtain ⟨c, hc, hid⟩ := h.grants g hg
  refine ⟨c, mem_deleteWhere.2 ⟨hc, ?_⟩, hid⟩
  have := List.any_eq_false.1 hno c hc
  simpa [hid] using this

theorem less_purge (h : Backed db) : Less now db (db.purge now) := by
  let db₁ : Db D := { db with
    codes := deleteWhere (fun c => c.expiresAt ≤ now) db.codes
    tokens := deleteWhere (fun t => t.expiresAt ≤ now) db.tokens }
  have h₁ : Less now db db₁ := by
    refine ⟨deleteWhere_sublist _ _, .refl _, deleteWhere_sublist _ _, rfl, ?_, ?_, h.grants⟩
    · intro t ht hnow _
      exact mem_deleteWhere.2 ⟨ht, by simpa using hnow⟩
    · intro t ht
      exact h.tokens t (mem_deleteWhere.1 ht).1
  have h₂ := h₁.trans (less_deleteGrants (fun g => !db₁.tokens.any fun t => t.grantId == g.id)
    (h₁.backed h))
  have h₃ := h₂.trans (less_deleteClients (fun c => decide (c.lastUsedAt.getD c.createdAt <
    now - unusedClientSecs) && !(db₁.deleteGrants fun g => !db₁.tokens.any fun t =>
      t.grantId == g.id).granted c.id) (h₂.backed h))
  exact h₃.trans (less_deleteClients _ (h₃.backed h))

theorem less_forgetGrant (h : Backed db) (id : Int) : Less now db (db.forgetGrant id) := by
  have hgrants : Less now db (db.deleteGrants fun g => g.id == id) := less_deleteGrants _ h
  unfold Db.forgetGrant
  simp only
  split
  · exact hgrants
  · split
    · exact hgrants
    · exact hgrants.trans (less_codes (hgrants.backed h) (.refl _) _ _)

theorem forgetGrant_gone (db : Db D) (id : Int) : ∀ g ∈ (db.forgetGrant id).grants, g.id ≠ id := by
  have hgone : ∀ g ∈ (db.deleteGrants fun g => g.id == id).grants, g.id ≠ id := by
    intro g hg
    simpa using (mem_deleteWhere.1 hg).2
  unfold Db.forgetGrant
  simp only
  split
  · exact hgone
  · split
    · exact hgone
    · exact hgone

theorem consent_eq (new : NewOauthCode) (now : Int) (db : Db D) :
    ∃ consents, db.consent new now = { db with consents } := by
  unfold Db.consent
  simp only
  split <;> exact ⟨_, rfl⟩

/-- Writing when an app was last used leaves every app there. -/
theorem mem_touchClient {id at' : Int} {c : Client} (h : c ∈ db.clients) :
    ∃ c' ∈ (db.touchClient id at').clients, c'.id = c.id := by
  refine ⟨if c.id == id then { c with lastUsedAt := some at' } else c,
    mem_updateWhere.2 ⟨c, h, rfl⟩, ?_⟩
  split <;> rfl

end Less

/-! ## 3. What a request can do -/

/-- An answer that hands nothing out. -/
def Answer.quiet : Answer → Prop
  | .code _ | .tokens _ => False
  | _ => True

/-- The two rows of a pair of tokens. -/
def tokenRows (x : Crypto D) (now grantId : Int) (t : OauthTokens) : List (Token D) :=
  [{ tokenHash := tokenHash x "oauth-access" t.accessToken, grantId, kind := .access,
     expiresAt := now + oauthAccessTokenSecs },
   { tokenHash := tokenHash x "oauth-refresh" t.refreshToken, grantId, kind := .refresh,
     expiresAt := now + oauthRefreshTokenSecs }]

/-- The tokens are those of the random parts. -/
structure OauthTokens.Of (t : OauthTokens) (access refresh : String) (grantId : Int) (scopes : String) :
    Prop where
  access : t.accessToken = newToken accessPrefix access
  refresh : t.refreshToken = newToken refreshPrefix refresh
  grantId : t.grantId = grantId
  scopes : t.scopes = splitWhitespace scopes

/-- **What a request can do** to codes, grants and tokens, with what it can be answered. -/
inductive Did [DecidableEq D] (x : Crypto D) (now : Int) (db : Db D) : Op → Answer → Db D → Prop
  | less {op : Op} {answer : Answer} {db' : Db D} (hquiet : answer.quiet) (hless : Less now db db') :
      Did x now db op answer db'
  | made {new : NewOauthCode} {random : String} {db₁ db' : Db D}
      (hless : Less now db db₁)
      (hcodes : db'.codes =
        db₁.codes ++ [new.row (tokenHash x "oauth-code" (newToken codePrefix random)) now])
      (hfree : ∀ c ∈ db₁.codes, c.codeHash ≠ tokenHash x "oauth-code" (newToken codePrefix random))
      (hrest : Less now db₁ { db' with codes := db₁.codes }) :
      Did x now db (.createCode new random) (.code (newToken codePrefix random)) db'
  | redeemed {code uri verifier access refresh : String} {c : Code D} {t : OauthTokens} {db' : Db D}
      (hc : c ∈ db.codes) (hhash : c.codeHash = tokenHash x "oauth-code" code)
      (hok : c.redeemable x now c.clientId uri verifier = true)
      (ht : t.Of access refresh (db.grantHighWater + 1) c.scopes)
      (hcodes : db'.codes = deleteWhere (fun c => c.codeHash == tokenHash x "oauth-code" code) db.codes)
      (hgrants : db'.grants =
        db.grants ++ [⟨db.grantHighWater + 1, c.accountId, c.clientId, c.scopes, now⟩])
      (hwater : db'.grantHighWater = db.grantHighWater + 1)
      (htokens : db'.tokens = db.tokens ++ tokenRows x now (db.grantHighWater + 1) t)
      (hunique : UniqueKey Token.tokenHash db.tokens → UniqueKey Token.tokenHash db'.tokens)
      (hclients : db'.clients = db.clients) (hclient : ∃ a ∈ db.clients, a.id = c.clientId) :
      Did x now db (.redeem code c.clientId uri verifier access refresh) (.tokens t) db'
  | rotated {token access refresh : String} {row : Token D} {g : Grant} {t : OauthTokens} {db' : Db D}
      (hrow : row ∈ db.tokens) (hhash : row.tokenHash = tokenHash x "oauth-refresh" token)
      (hkind : row.kind = .refresh) (hunused : row.usedAt = none) (hnow : now < row.expiresAt)
      (hg : g ∈ db.grants) (hid : g.id = row.grantId)
      (ht : t.Of access refresh g.id g.scopes)
      (hcodes : db'.codes = db.codes) (hgrants : db'.grants = db.grants)
      (hwater : db'.grantHighWater = db.grantHighWater)
      (htokens : db'.tokens =
        deleteWhere (fun u => u.grantId == g.id && decide (u.expiresAt ≤ now))
          (updateWhere (fun u => u.tokenHash == row.tokenHash) (fun u => { u with usedAt := some now })
            db.tokens) ++ tokenRows x now g.id t)
      (hunique : UniqueKey Token.tokenHash db.tokens → UniqueKey Token.tokenHash db'.tokens)
      (hclients : ∀ c ∈ db.clients, ∃ c' ∈ db'.clients, c'.id = c.id) :
      Did x now db (.refresh token g.clientId access refresh) (.tokens t) db'

section Did

variable [DecidableEq D] {now : Int} {db db' : Db D}

theorem insertToken_ok {t : Token D} (h : db.insertToken t = .ok db') :
    (∀ u ∈ db.tokens, u.tokenHash ≠ t.tokenHash) ∧ db' = { db with tokens := db.tokens ++ [t] } := by
  unfold Db.insertToken at h
  obtain ⟨_, hfree, h⟩ := Tx.except_bind_ok h
  obtain ⟨_, -, h⟩ := Tx.except_bind_ok h
  cases h
  refine ⟨?_, rfl⟩
  simpa [check_ok] using hfree

/-- A pair of tokens with two new hashes. -/
theorem insertTokens_ok {id : Int} {t : OauthTokens}
    (h : db.insertTokens id (tokenHash x "oauth-access" t.accessToken)
      (tokenHash x "oauth-refresh" t.refreshToken) now = .ok db') :
    db' = { db with tokens := db.tokens ++ tokenRows x now id t } ∧
      (UniqueKey Token.tokenHash db.tokens → UniqueKey Token.tokenHash db'.tokens) := by
  unfold Db.insertTokens at h
  obtain ⟨db₁, h₁, h⟩ := Tx.except_bind_ok h
  obtain ⟨hfree₁, rfl⟩ := insertToken_ok h₁
  obtain ⟨hfree₂, rfl⟩ := insertToken_ok h
  refine ⟨?_, fun hu => (hu.append hfree₁).append hfree₂⟩
  simp [tokenRows]

omit [DecidableEq D] in
theorem insertGrant_ok {account client : Int} {scopes : String}
    (h : db.insertGrant account client scopes now = .ok db') :
    (∃ c ∈ db.clients, c.id = client) ∧
      db' = { db with
        grants := db.grants ++ [⟨db.grantHighWater + 1, account, client, scopes, now⟩]
        grantHighWater := db.grantHighWater + 1 } := by
  unfold Db.insertGrant at h
  obtain ⟨_, -, h⟩ := Tx.except_bind_ok h
  obtain ⟨_, hclient, h⟩ := Tx.except_bind_ok h
  cases h
  refine ⟨?_, rfl⟩
  simpa [check_ok] using hclient

theorem settle_less {α : Type} {f : α → Answer} {r : Except StoreError (α × Db D)} {op : Op}
    (hb : Backed db) (hquiet : ∀ a, (f a).quiet)
    (h : ∀ a db', r = .ok (a, db') → Less now db db') :
    Did x now db op (settle db f r).1 (settle db f r).2 := by
  cases r with
  | error e => exact .less trivial (.refl hb)
  | ok p => exact .less (hquiet p.1) (h p.1 p.2 rfl)

omit [DecidableEq D] in
theorem less_register {clientId name : String} {id : Int} (hb : Backed db)
    (h : registerOauthClient now clientId name db = .ok (id, db')) : Less now db db' := by
  have hpurge : Less now db (db.purge now) := less_purge hb
  unfold registerOauthClient at h
  obtain ⟨_, -, h⟩ := Tx.except_bind_ok h
  obtain ⟨_, -, h⟩ := Tx.except_bind_ok h
  cases h
  have hroom : ∀ db₁ : Db D, Less now db db₁ → ∀ c : Client,
      Less now db { db₁ with clients := db₁.clients ++ [c] } := by
    intro db₁ h₁ c
    refine ⟨h₁.codes, h₁.grants, h₁.tokens, h₁.highWater, h₁.kept, h₁.tokensBacked, ?_⟩
    intro g hg
    obtain ⟨a, ha, hid⟩ := h₁.grantsBacked g hg
    exact ⟨a, List.mem_append_left _ ha, hid⟩
  refine hroom _ ?_ _
  split
  · exact hpurge
  · exact hpurge.trans (less_deleteClients _ (hpurge.backed hb))

theorem did_create {new : NewOauthCode} {random : String} (hb : Backed db) :
    Did x now db (.createCode new random)
      (settle db .code (createOauthCode x now new random db)).1
      (settle db .code (createOauthCode x now new random db)).2 := by
  cases h : createOauthCode x now new random db with
  | error e => exact .less trivial (.refl hb)
  | ok p =>
    unfold createOauthCode at h
    obtain ⟨_, -, h⟩ := Tx.except_bind_ok h
    obtain ⟨_, hfree, h⟩ := Tx.except_bind_ok h
    obtain ⟨_, -, h⟩ := Tx.except_bind_ok h
    obtain ⟨_, -, h⟩ := Tx.except_bind_ok h
    cases h
    have hpurge : Less now db (db.purge now) := less_purge hb
    obtain ⟨consents, hconsent⟩ := consent_eq new now { db.purge now with
      codes := (db.purge now).codes ++
        [new.row (tokenHash x "oauth-code" (newToken codePrefix random)) now] }
    simp only [settle, hconsent]
    refine .made hpurge rfl (by simpa [check_ok, NewOauthCode.row] using hfree) ?_
    refine ⟨.refl _, .refl _, .refl _, rfl, fun t ht _ _ => ht, hpurge.tokensBacked, ?_⟩
    intro g hg
    obtain ⟨c, hc, hid⟩ := hpurge.grantsBacked g hg
    obtain ⟨c', hc', hid'⟩ := @mem_touchClient _ _ new.clientId now _ hc
    exact ⟨c', hc', hid'.trans hid⟩

theorem did_redeem {code uri verifier access refresh : String} {client : Int} (hb : Backed db) :
    Did x now db (.redeem code client uri verifier access refresh)
      (settle db .ofTrade (redeemOauthCode x now code client uri verifier access refresh db)).1
      (settle db .ofTrade (redeemOauthCode x now code client uri verifier access refresh db)).2 := by
  have hspent : Less now db { db with
      codes := deleteWhere (fun c => c.codeHash == tokenHash x "oauth-code" code) db.codes } :=
    less_codes hb (deleteWhere_sublist _ _) _ _
  unfold redeemOauthCode
  split
  · exact .less trivial (.refl hb)
  simp only
  split
  · exact .less trivial (.refl hb)
  rename_i c hfind
  split
  · exact .less trivial hspent
  rename_i hok
  split
  · exact .less trivial hspent
  rename_i account haccount
  generalize hdb₁ : ({ db with
    codes := deleteWhere (fun c => c.codeHash == tokenHash x "oauth-code" code) db.codes } : Db D) = db₁
    at *
  cases hsign : db₁.signIn x now c account (newToken accessPrefix access)
      (newToken refreshPrefix refresh) with
  | error e => exact .less trivial (.refl hb)
  | ok p =>
    obtain ⟨t, db'⟩ := p
    unfold Db.signIn at hsign
    obtain ⟨db₂, hgrant, hsign⟩ := Tx.except_bind_ok hsign
    obtain ⟨hclient, rfl⟩ := insertGrant_ok hgrant
    obtain ⟨db₃, htokens, hsign⟩ := Tx.except_bind_ok hsign
    subst hdb₁
    split at hsign
    · cases hsign
    · rename_i cl _
      cases hsign
      have hcode : c ∈ db.codes ∧ c.codeHash = tokenHash x "oauth-code" code :=
        ⟨List.mem_of_find?_eq_some hfind, by simpa using List.find?_some hfind⟩
      have hredeem : c.redeemable x now client uri verifier = true := by simpa using hok
      have hown : c.clientId = client := by
        simp only [Code.redeemable, Bool.and_eq_true, beq_iff_eq] at hredeem
        exact hredeem.1.1.1
      subst hown
      obtain ⟨rfl, hunique⟩ := insertTokens_ok (t := {
        accessToken := newToken accessPrefix access, refreshToken := newToken refreshPrefix refresh
        scopes := splitWhitespace c.scopes, account, grantId := db.grantHighWater + 1
        newGrant := !(db.grants.any fun g => g.accountId == c.accountId && g.clientId == c.clientId)
        nonce := c.nonce, authTime := c.authTime, clientName := cl.name }) htokens
      exact .redeemed hcode.1 hcode.2 hredeem ⟨rfl, rfl, rfl, rfl⟩ rfl rfl rfl rfl hunique rfl hclient

theorem tokenOf_some {hash : D} {p : Token D → Bool} {t : Token D} {g : Grant} {c : Client}
    (h : db.tokenOf hash p = some (t, g, c)) :
    t ∈ db.tokens ∧ t.tokenHash = hash ∧ p t = true ∧ g ∈ db.grants ∧ g.id = t.grantId ∧
      c ∈ db.clients ∧ c.id = g.clientId := by
  unfold Db.tokenOf at h
  simp only [Option.pure_def, Option.bind_eq_bind, Option.bind_eq_some_iff, Option.some.injEq,
    Prod.mk.injEq] at h
  obtain ⟨t', ht, g', hg, c', hc, rfl, rfl, rfl⟩ := h
  have hp := List.find?_some ht
  simp only [Bool.and_eq_true, beq_iff_eq] at hp
  exact ⟨List.mem_of_find?_eq_some ht, hp.1, hp.2, List.mem_of_find?_eq_some hg,
    by simpa using List.find?_some hg, List.mem_of_find?_eq_some hc, by simpa using List.find?_some hc⟩

theorem did_refresh {token access refresh : String} {client : Int} (hb : Backed db) :
    Did x now db (.refresh token client access refresh)
      (settle db .ofTrade (refreshOauth x now token client access refresh db)).1
      (settle db .ofTrade (refreshOauth x now token client access refresh db)).2 := by
  unfold refreshOauth
  split
  · exact .less trivial (.refl hb)
  simp only
  split
  · exact .less trivial (.refl hb)
  rename_i row g cl htoken
  obtain ⟨hrow, hhash, hkind, hg, hid, hcl, hclid⟩ := tokenOf_some htoken
  split
  · exact .less trivial (.refl hb)
  rename_i hclient
  split
  · exact .less trivial (less_forgetGrant hb _)
  rename_i hunused
  split
  · exact .less trivial (.refl hb)
  rename_i hnow
  split
  · exact .less trivial (.refl hb)
  rename_i account haccount
  have hown : g.clientId = client := by simpa using hclient
  subst hown
  cases hrotate : db.rotate x now row g (newToken accessPrefix access)
      (newToken refreshPrefix refresh) with
  | error e => exact .less trivial (.refl hb)
  | ok db' =>
    unfold Db.rotate at hrotate
    obtain ⟨db₁, htokens, hrotate⟩ := Tx.except_bind_ok hrotate
    cases hrotate
    obtain ⟨rfl, hunique⟩ := insertTokens_ok (t := {
      accessToken := newToken accessPrefix access, refreshToken := newToken refreshPrefix refresh
      scopes := splitWhitespace g.scopes, account, grantId := g.id, newGrant := false
      nonce := none, authTime := g.createdAt, clientName := cl.name }) htokens
    refine .rotated hrow hhash (by simpa using hkind) (by simpa using hunused) (by omega) hg hid
      ⟨rfl, rfl, rfl, rfl⟩ rfl rfl rfl rfl ?_ fun c hc => mem_touchClient hc
    intro hu
    exact hunique ((hu.updateWhere (f := fun u => { u with usedAt := some now }) (fun _ => rfl) _).deleteWhere _)

/-- **Every request does one of four things.** -/
theorem did_perform (hb : Backed db) (op : Op) :
    Did x now db op (perform x now op db).1 (perform x now op db).2 := by
  cases op with
  | register clientId name => exact settle_less hb (fun _ => trivial) fun _ _ h => less_register hb h
  | createCode new random => exact did_create hb
  | redeem code client uri verifier access refresh => exact did_redeem hb
  | refresh token client access refresh => exact did_refresh hb
  | revokeToken token client =>
    refine .less trivial ?_
    show Less now db (revokeOauthToken x token client db).2
    unfold revokeOauthToken
    simp only
    split
    · exact .refl hb
    · exact less_forgetGrant hb _
  | revokeGrant account id =>
    refine settle_less hb (fun _ => trivial) ?_
    intro g db' h
    unfold revokeOauthGrant at h
    split at h
    · cases h
    · cases h
      exact less_forgetGrant hb _
  | directory accounts => exact .less trivial (less_withAccounts hb _)

end Did

end UwuMail.Oauth
