/-
# Authorization codes, tokens and grants

The tables of `oauth.rs` and the transactions on them: `create_oauth_code`, `redeem_oauth_code`,
`refresh_oauth`, `revoke_oauth_token`, `revoke_oauth_grant`, the insertion of a registered app, and
`authenticate_oauth_within`, which reads them.

A GRANT is one sign-in of one app.  It has at most two live tokens, an access token and the refresh
token that is traded in for the next two.  The row of a refresh token that was traded in is kept
while it would still be valid, so that it is noticed when it comes back.

A transaction takes its time as an argument, and the random part of every token it makes.  A row
that is deleted takes along what refers to it (`ON DELETE CASCADE`).  The columns that only say when
a grant was last used are left out, and so are the push subscriptions and held messages that end
with a grant.
-/
import UwuMail.Directory.Masked
import UwuMail.Lib.Trace

namespace UwuMail.Oauth

open Store (StoreError)
open Directory (check nextRowId)
open Table

/-! ## 1. What the code is given -/

/-- SHA-256 of a text's bytes, and unpadded base64url of a digest. -/
structure Crypto (D : Type) where
  sha256 : String → D
  base64url : D → String

def oauthAccessTokenSecs : Int := 3600

def oauthRefreshTokenSecs : Int := 90 * 24 * 3600

def oauthCodeSecs : Int := 120

def unusedClientSecs : Int := 7 * 24 * 3600

def neverUsedClientSecs : Int := 24 * 3600

def maxClients : Nat := 10000

def accessPrefix : String := "uwu_at_"

def refreshPrefix : String := "uwu_rt_"

def codePrefix : String := "uwu_ac_"

def appPasswordScope : String := "app-password"

def maskedEmailScope : String := "maskedemail"

/-- `str::starts_with`. -/
def startsWith (text pre : String) : Bool := pre.toList.isPrefixOf text.toList

/-- `str::split_whitespace`. -/
def splitWhitespace (text : String) : List String :=
  ((text.toList.splitOnP Char.isWhitespace).filter (· ≠ [])).map String.ofList

def scopeList (scopes : List String) : String := " ".intercalate scopes

variable {D : Type}

def tokenHash (x : Crypto D) (kind token : String) : D := x.sha256 (kind ++ ":" ++ token)

/-- `new_token`, with what the random bytes came to. -/
def newToken (pre random : String) : String := pre ++ random

def isOauthAccessToken (token : String) : Bool :=
  startsWith token accessPrefix && token.utf8ByteSize < 200

def pkceMatches (x : Crypto D) (challenge verifier : String) : Bool :=
  (43 ≤ verifier.toList.length && verifier.toList.length ≤ 128 &&
    verifier.toList.all fun c => c.isAlphanum || c == '-' || c == '.' || c == '_' || c == '~') &&
  x.base64url (x.sha256 verifier) == challenge

def validPkceChallenge (challenge : String) : Bool :=
  challenge.toList.length == 43 &&
    challenge.toList.all fun c => c.isAlphanum || c == '-' || c == '_'

/-! ## 2. The tables -/

structure Protocols where
  smtp : Bool := true
  imap : Bool := true
  jmap : Bool := true
  caldav : Bool := true
  carddav : Bool := true
  deriving DecidableEq

/-- An account as a login sees it. -/
structure Account extends Directory.Account where
  protocols : Protocols := {}
  deriving DecidableEq

def Account.canUsePortal (a : Account) : Bool := a.canLogIn && a.role != .service

def Account.mayUse (a : Account) (protocol : String) : Bool :=
  match protocol with
  | "imap" | "managesieve" => a.protocols.imap
  | "jmap" => a.protocols.jmap
  | "smtp" => a.protocols.smtp
  | "dav" => a.protocols.caldav || a.protocols.carddav
  | _ => false

/-- An app that registered itself. -/
structure Client where
  id : Int
  clientId : String
  name : String
  createdAt : Int
  lastUsedAt : Option Int := none

structure Code (D : Type) where
  codeHash : D
  clientId : Int
  accountId : Int
  redirectUri : String
  scopes : String
  codeChallenge : String
  nonce : Option String
  authTime : Int
  expiresAt : Int

structure Grant where
  id : Int
  accountId : Int
  clientId : Int
  scopes : String
  createdAt : Int

inductive TokenKind
  | access
  | refresh
  deriving DecidableEq

structure Token (D : Type) where
  tokenHash : D
  grantId : Int
  kind : TokenKind
  expiresAt : Int
  usedAt : Option Int := none
  deriving DecidableEq

structure Consent where
  accountId : Int
  clientId : Int
  scopes : String
  createdAt : Int

structure Db (D : Type) where
  accounts : List Account := []
  clients : List Client := []
  codes : List (Code D) := []
  grants : List Grant := []
  tokens : List (Token D) := []
  consents : List Consent := []
  /-- The highest id a grant ever had. -/
  grantHighWater : Int := 0

/-! ## 3. Deleting rows -/

/-- `DELETE FROM oauth_grants`, and the tokens with them. -/
def Db.deleteGrants (db : Db D) (p : Grant → Bool) : Db D :=
  { db with
    grants := deleteWhere p db.grants
    tokens := deleteWhere (fun t => db.grants.any fun g => p g && g.id == t.grantId) db.tokens }

/-- `DELETE FROM oauth_clients`, and what was theirs. -/
def Db.deleteClients (db : Db D) (p : Client → Bool) : Db D :=
  let gone id := db.clients.any fun c => p c && c.id == id
  let db' := { db with
    clients := deleteWhere p db.clients
    codes := deleteWhere (fun c => gone c.clientId) db.codes
    consents := deleteWhere (fun c => gone c.clientId) db.consents }
  db'.deleteGrants fun g => gone g.clientId

/-- The directory's accounts become others; what belonged to an account that is gone goes with
it. -/
def Db.withAccounts (db : Db D) (accounts : List Account) : Db D :=
  let gone id := !accounts.any fun a => a.id == id
  let db' := { db with
    accounts
    codes := deleteWhere (fun c => gone c.accountId) db.codes
    consents := deleteWhere (fun c => gone c.accountId) db.consents }
  db'.deleteGrants fun g => gone g.accountId

/-- Whether any grant belongs to the client. -/
def Db.granted (db : Db D) (client : Int) : Bool := db.grants.any fun g => g.clientId == client

/-- `purge`: codes and tokens that ran out, grants without a token left, and apps nobody uses. -/
def Db.purge (db : Db D) (now : Int) : Db D :=
  let db := { db with
    codes := deleteWhere (fun c => c.expiresAt ≤ now) db.codes
    tokens := deleteWhere (fun t => t.expiresAt ≤ now) db.tokens }
  let db := db.deleteGrants fun g => !db.tokens.any fun t => t.grantId == g.id
  let db := db.deleteClients fun c =>
    decide (c.lastUsedAt.getD c.createdAt < now - unusedClientSecs) && !db.granted c.id
  db.deleteClients fun c =>
    c.lastUsedAt.isNone && decide (c.createdAt < now - neverUsedClientSecs) && !db.granted c.id

/-- `forget_grant`: the grant with its tokens, and the consent when it was the app's last one. -/
def Db.forgetGrant (db : Db D) (id : Int) : Db D :=
  let owner := db.grants.find? fun g => g.id == id
  let db := db.deleteGrants fun g => g.id == id
  match owner with
  | none => db
  | some g =>
    if db.grants.any fun h => h.accountId == g.accountId && h.clientId == g.clientId then db
    else { db with
      consents := deleteWhere (fun c => c.accountId == g.accountId && c.clientId == g.clientId) db.consents }

/-! ## 4. Writing rows -/

def foreignKey : StoreError := .sqlite "FOREIGN KEY constraint failed"

/-- `INSERT INTO oauth_tokens`. -/
def Db.insertToken [DecidableEq D] (db : Db D) (t : Token D) : Except StoreError (Db D) := do
  check (!db.tokens.any fun u => u.tokenHash == t.tokenHash)
    (.sqlite "UNIQUE constraint failed: oauth_tokens.token_hash")
  check (db.grants.any fun g => g.id == t.grantId) foreignKey
  pure { db with tokens := db.tokens ++ [t] }

def Db.insertTokens [DecidableEq D] (db : Db D) (grantId : Int) (access refresh : D) (now : Int) :
    Except StoreError (Db D) := do
  let db ← db.insertToken
    { tokenHash := access, grantId, kind := .access, expiresAt := now + oauthAccessTokenSecs }
  db.insertToken
    { tokenHash := refresh, grantId, kind := .refresh, expiresAt := now + oauthRefreshTokenSecs }

/-- `INSERT INTO oauth_grants` under the next id, which the triggers keep from being used again. -/
def Db.insertGrant (db : Db D) (accountId clientId : Int) (scopes : String) (now : Int) :
    Except StoreError (Db D) := do
  check (db.accounts.any fun a => a.id == accountId) foreignKey
  check (db.clients.any fun c => c.id == clientId) foreignKey
  let id := db.grantHighWater + 1
  pure { db with
    grants := db.grants ++ [{ id, accountId, clientId, scopes, createdAt := now }]
    grantHighWater := id }

/-- `UPDATE oauth_clients SET last_used_at`. -/
def Db.touchClient (db : Db D) (id now : Int) : Db D :=
  { db with clients := updateWhere (·.id == id) (fun c => { c with lastUsedAt := some now }) db.clients }

/-! ## 5. Codes -/

/-- What an authorization code stands for, until the app trades it in. -/
structure NewOauthCode where
  clientId : Int
  accountId : Int
  redirectUri : String
  scopes : List String
  codeChallenge : String
  nonce : Option String
  authTime : Int
  deriving DecidableEq

/-- The row of a new code. -/
def NewOauthCode.row (new : NewOauthCode) (codeHash : D) (now : Int) : Code D :=
  { codeHash, clientId := new.clientId, accountId := new.accountId, redirectUri := new.redirectUri,
    scopes := scopeList new.scopes, codeChallenge := new.codeChallenge, nonce := new.nonce,
    authTime := new.authTime, expiresAt := now + oauthCodeSecs }

/-- The person allowed these scopes: what was allowed before stays allowed. -/
def Db.consent (db : Db D) (new : NewOauthCode) (now : Int) : Db D :=
  let mine (c : Consent) := c.accountId == new.accountId && c.clientId == new.clientId
  let before := ((db.consents.find? mine).map fun c => splitWhitespace c.scopes).getD []
  let wanted := (splitWhitespace (scopeList new.scopes)).filter (· ≠ appPasswordScope)
  let all := scopeList (wanted.foldl (fun all s => if s ∈ all then all else all ++ [s]) before)
  if db.consents.any mine then
    { db with consents := updateWhere mine (fun c => { c with scopes := all }) db.consents }
  else
    { db with consents := db.consents ++
        [{ accountId := new.accountId, clientId := new.clientId, scopes := all, createdAt := now }] }

def createOauthCode [DecidableEq D] (x : Crypto D) (now : Int) (new : NewOauthCode) (random : String)
    (db : Db D) : Except StoreError (String × Db D) := do
  check (validPkceChallenge new.codeChallenge) (.invalid "the PKCE challenge is not an S256 one")
  let code := newToken codePrefix random
  let row := new.row (tokenHash x "oauth-code" code) now
  let db := db.purge now
  check (!db.codes.any fun c => c.codeHash == row.codeHash)
    (.sqlite "UNIQUE constraint failed: oauth_codes.code_hash")
  check (db.accounts.any fun a => a.id == new.accountId) foreignKey
  check (db.clients.any fun c => c.id == new.clientId) foreignKey
  let db := { db with codes := db.codes ++ [row] }
  pure (code, (db.consent new now).touchClient new.clientId now)

/-- Why a code or refresh token was not traded in. -/
inductive OauthRefusal
  | invalidGrant
  | reused (accountId : Int) (clientName : String)
  deriving DecidableEq

/-- Tokens handed to an app, with what an ID token needs to say. -/
structure OauthTokens where
  accessToken : String
  refreshToken : String
  expiresIn : Int := oauthAccessTokenSecs
  scopes : List String
  account : Account
  grantId : Int
  newGrant : Bool
  nonce : Option String
  authTime : Int
  clientName : String
  deriving DecidableEq

/-- The account behind a code or grant, if it may use the portal. -/
def Db.portalAccount (db : Db D) (id : Int) : Option Account :=
  (db.accounts.find? fun a => a.id == id).filter Account.canUsePortal

/-- Whether a code is for this app and redirect address, has not run out, and the verifier is the
one behind its challenge. -/
def Code.redeemable (x : Crypto D) (c : Code D) (now clientId : Int) (redirectUri verifier : String) :
    Bool :=
  c.clientId == clientId && c.redirectUri == redirectUri && decide (now < c.expiresAt) &&
    pkceMatches x c.codeChallenge verifier

/-- The new grant of a code and its first tokens. -/
def Db.signIn [DecidableEq D] (x : Crypto D) (now : Int) (c : Code D) (account : Account)
    (access refresh : String) (db : Db D) : Except StoreError (OauthTokens × Db D) := do
  let earlier := db.grants.any fun g => g.accountId == c.accountId && g.clientId == c.clientId
  let db ← db.insertGrant c.accountId c.clientId c.scopes now
  let grantId := db.grantHighWater
  let db ← db.insertTokens grantId (tokenHash x "oauth-access" access)
    (tokenHash x "oauth-refresh" refresh) now
  match db.clients.find? fun a => a.id == c.clientId with
  | none => .error (.sqlite "Query returned no rows")
  | some client =>
    pure ({ accessToken := access, refreshToken := refresh, scopes := splitWhitespace c.scopes,
            account, grantId, newGrant := !earlier, nonce := c.nonce, authTime := c.authTime,
            clientName := client.name }, db)

/-- `redeem_oauth_code`.  The code is gone at the first try, right or wrong. -/
def redeemOauthCode [DecidableEq D] (x : Crypto D) (now : Int) (code : String) (clientId : Int)
    (redirectUri verifier access refresh : String) (db : Db D) :
    Except StoreError (Except OauthRefusal OauthTokens × Db D) :=
  if !startsWith code codePrefix then .ok (.error .invalidGrant, db) else
  let hash := tokenHash x "oauth-code" code
  match db.codes.find? fun c => c.codeHash == hash with
  | none => .ok (.error .invalidGrant, db)
  | some c =>
    let db := { db with codes := deleteWhere (fun c => c.codeHash == hash) db.codes }
    if !c.redeemable x now clientId redirectUri verifier then .ok (.error .invalidGrant, db) else
    match db.portalAccount c.accountId with
    | none => .ok (.error .invalidGrant, db)
    | some account => do
      let (tokens, db) ← db.signIn x now c account (newToken accessPrefix access)
        (newToken refreshPrefix refresh)
      pure (.ok tokens, db)

/-! ## 6. Rotation -/

/-- A token of this kind, with its grant and the app the grant is for. -/
def Db.tokenOf [DecidableEq D] (db : Db D) (hash : D) (p : Token D → Bool) :
    Option (Token D × Grant × Client) := do
  let t ← db.tokens.find? fun t => t.tokenHash == hash && p t
  let g ← db.grants.find? fun g => g.id == t.grantId
  let c ← db.clients.find? fun c => c.id == g.clientId
  pure (t, g, c)

/-- The old refresh token is used up and the grant gets its next two tokens. -/
def Db.rotate [DecidableEq D] (x : Crypto D) (now : Int) (t : Token D) (g : Grant)
    (access refresh : String) (db : Db D) : Except StoreError (Db D) := do
  let db := { db with
    tokens := updateWhere (fun u => u.tokenHash == t.tokenHash) (fun u => { u with usedAt := some now })
      db.tokens }
  -- What of this grant ran out goes now; an app that refreshes all day keeps no pile.
  let db := { db with
    tokens := deleteWhere (fun u => u.grantId == g.id && decide (u.expiresAt ≤ now)) db.tokens }
  let db ← db.insertTokens g.id (tokenHash x "oauth-access" access)
    (tokenHash x "oauth-refresh" refresh) now
  pure (db.touchClient g.clientId now)

def refreshOauth [DecidableEq D] (x : Crypto D) (now : Int) (token : String) (clientId : Int)
    (access refresh : String) (db : Db D) :
    Except StoreError (Except OauthRefusal OauthTokens × Db D) :=
  if !startsWith token refreshPrefix then .ok (.error .invalidGrant, db) else
  match db.tokenOf (tokenHash x "oauth-refresh" token) (·.kind == .refresh) with
  | none => .ok (.error .invalidGrant, db)
  | some (t, g, client) =>
    if g.clientId != clientId then .ok (.error .invalidGrant, db) else
    if t.usedAt.isSome then .ok (.error (.reused g.accountId client.name), db.forgetGrant g.id) else
    if t.expiresAt ≤ now then .ok (.error .invalidGrant, db) else
    match db.portalAccount g.accountId with
    | none => .ok (.error .invalidGrant, db)
    | some account => do
      let access := newToken accessPrefix access
      let refresh := newToken refreshPrefix refresh
      let db ← db.rotate x now t g access refresh
      pure (.ok { accessToken := access, refreshToken := refresh, scopes := splitWhitespace g.scopes,
                  account, grantId := g.id, newGrant := false, nonce := none,
                  authTime := g.createdAt, clientName := client.name }, db)

/-! ## 7. Revoking -/

def revokeOauthToken [DecidableEq D] (x : Crypto D) (token : String) (clientId : Int) (db : Db D) :
    Option (Int × String) × Db D :=
  let found hash := (db.tokenOf hash fun _ => true).filter fun r => r.2.1.clientId == clientId
  match found (tokenHash x "oauth-access" token) <|> found (tokenHash x "oauth-refresh" token) with
  | none => (none, db)
  | some (_, g, client) => (some (g.accountId, client.name), db.forgetGrant g.id)

def revokeOauthGrant (accountId grantId : Int) (db : Db D) : Except StoreError (Grant × Db D) :=
  match db.grants.find? fun g => g.id == grantId && g.accountId == accountId &&
      db.clients.any fun c => c.id == g.clientId with
  | none => .error (.notFound s!"OAuth grant {grantId}")
  | some g => .ok (g, db.forgetGrant grantId)

/-- The transaction of `register_oauth_client`, for a name and addresses that passed its checks.  A
full table forgets the oldest apps that nobody ever allowed in. -/
def registerOauthClient (now : Int) (clientId name : String) (db : Db D) :
    Except StoreError (Int × Db D) := do
  let db := db.purge now
  let unused := (db.clients.filter fun c => c.lastUsedAt.isNone && !db.granted c.id).insertionSort
    fun a b => a.createdAt < b.createdAt ∨ (a.createdAt = b.createdAt ∧ a.id ≤ b.id)
  let oldest := unused.take (db.clients.length + 1 - maxClients)
  check (decide (db.clients.length < maxClients) || !oldest.isEmpty)
    (.rule "temporarily_unavailable" "too many apps are registered here right now")
  let db := if db.clients.length < maxClients then db
    else db.deleteClients fun c => oldest.any fun o => o.id == c.id
  check (!db.clients.any fun c => c.clientId == clientId)
    (.sqlite "UNIQUE constraint failed: oauth_clients.client_id")
  let id := nextRowId (db.clients.map (·.id))
  pure (id, { db with clients := db.clients ++ [{ id, clientId, name, createdAt := now }] })

/-! ## 8. Signing in with a token -/

inductive AppScope
  | mail
  | smtp
  | dav

def AppScope.asStr : AppScope → String
  | .mail => "mail"
  | .smtp => "smtp"
  | .dav => "dav"

inductive MailAuthDenied
  | invalid
  | expired
  | protocolOff
  | wrongScope

/-- `authenticate_oauth_within`: the account and the grant behind a good access token. -/
def authenticateOauthWithin [DecidableEq D] (x : Crypto D) (now : Int) (token : String)
    (scope : AppScope) (orMasked : Bool) (protocol : String) (db : Db D) :
    Except MailAuthDenied (Account × Int) :=
  if !isOauthAccessToken token then .error .invalid else
  let hash := tokenHash x "oauth-access" token
  let found : Option (Account × Grant × Token D) := do
    let t ← db.tokens.find? fun t => t.tokenHash == hash && t.kind == .access
    let g ← db.grants.find? fun g => g.id == t.grantId
    let a ← db.accounts.find? fun a => a.id == g.accountId
    pure (a, g, t)
  match found with
  | none => .error .invalid
  | some (account, g, t) =>
    -- A service never signs in to the portal, so it can never have agreed to anything.
    if !account.canUsePortal then .error .invalid else
    if t.expiresAt ≤ now then .error .expired else
    if !account.mayUse protocol then .error .protocolOff else
    if (splitWhitespace g.scopes).any fun given =>
        given == scope.asStr || (orMasked && given == maskedEmailScope) then
      .ok (account, g.id)
    else .error .wrongScope

end UwuMail.Oauth
