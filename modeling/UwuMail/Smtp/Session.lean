/-
# An SMTP session

`inbound.rs`: the commands, and the loop that reads what a client sends and gives it to whichever
RECEIVER is at work.  A session keeps its transaction in four places (the envelope, the recipients,
the bytes that have arrived, whether a chunk did not fit), which the commands reset at different
points.

One turn of the loop (§8) is one step, and a read, or the end of the connection, is another, so a
run is any list of these.

The receivers come from the `smtp_proto` crate, which is not in the repository: `Wire` is what they
are, with the two things the session relies on.  The rest of the server answers in every turn as it
then stands (`World`), so a store that fails, or changes between two commands, is a run like any
other.

`Session.log` is no field of the source.  It holds the replies, and beside them what a step did.
-/
import UwuMail.Directory.Doors
import UwuMail.Lib.Trace

namespace UwuMail.Smtp

open Store (StoreError)
open Directory (Text GroupDelivery WhoMaySend MaskedDelivery normalizeAddress rsplitOnce sqlLower)

/-! ## 1. Envelopes and recipients -/

inductive ListenerKind
  /-- Port 25: mail for our domains from other servers.  No authentication. -/
  | mx
  /-- Port 587: authenticated submission after STARTTLS. -/
  | submission
  /-- Port 465: authenticated submission over implicit TLS. -/
  | submissionTls
  deriving DecidableEq

def ListenerKind.isSubmission : ListenerKind → Bool
  | .mx => false
  | .submission | .submissionTls => true

inductive ReportKind
  | tls
  | dmarc

structure Envelope where
  address : String
  size : Nat := 0
  envId : Option String := none

/-- A group a recipient entry belongs to. -/
structure GroupEntry where
  /-- The group's own address, without a `+tag`. -/
  address : String
  /-- Only certain senders may write to it, so a sender from elsewhere has to be verified too. -/
  restricted : Bool := false

structure Recipient where
  address : String
  localAccount : Option Int := none
  /-- A bounce for a forwarded message, to pass on to this original sender. -/
  srsReturn : Option String := none
  /-- DMARC or TLS reports for one of our domains, read by the server itself. -/
  report : Option ReportKind := none
  /-- A forwarding address without a mailbox: where its mail goes, with the account for people here. -/
  forwardTo : Option (List (String × Option Int)) := none
  /-- An address that exists only to catch spam. -/
  trap : Bool := false
  /-- The group this entry delivers to one member of. -/
  group : Option GroupEntry := none
  masked : Option MaskedDelivery := none
  notifyFlags : Nat := 0
  orcpt : Option String := none

/-- What the session reads of an account. -/
structure Account where
  id : Int
  login : String := ""
  hasMailbox : Bool := true
  /-- 0 is unlimited. -/
  quotaBytes : Int := 0
  usedBytes : Int := 0

/-! ## 2. What a session asks -/

inductive MailAuth
  | ok (account : Account)
  | denied

/-- A token login: the login the app named, if any, and the token. -/
structure SaslBearer where
  user : Option String
  token : String

/-- The rest of the server, as a command finds it. -/
structure World where
  text : Text
  hostname : String
  maxMessageSize : Nat
  maxRecipients : Nat
  requireTlsForAuth : Bool
  /-- `server_tls` is there. -/
  offersTls : Bool
  /-- What becomes of a TLS handshake. -/
  handshake : Bool
  traps : List String
  isLocalDomain : String → Except StoreError Bool
  accountInternalOnly : Int → Except StoreError Bool
  addressesInternalOnly : List String → Except StoreError Bool
  accountOwnsAddress : Int → String → Except StoreError Bool
  reportRecipient : String → Except StoreError (Option ReportKind)
  forwardAddressTargets : String → Except StoreError (Option (List (String × Option Int)))
  groupDelivery : String → Except StoreError (Option GroupDelivery)
  groupAccepts : GroupDelivery → String → Option Int → Except StoreError Bool
  maskedDelivery : String → Except StoreError (Option MaskedDelivery)
  resolveRecipient : String → Except StoreError (Option Int)
  accountById : Int → Except StoreError (Option Account)
  deliveryTarget : Int → Except StoreError (Option Int)
  /-- `srs::secret` and `srs::reverse`. -/
  srsReverse : String → Option String
  /-- `auth_limiter.is_blocked` of the client. -/
  isBlocked : Bool
  /-- `auth_limiter.begin` lets a login be tried. -/
  begin : String → Bool
  authenticateMail : String → String → Except StoreError MailAuth
  authenticateOauth : String → Except StoreError MailAuth
  decodeBase64 : String → Option (List UInt8)
  decodeUtf8 : List UInt8 → Option String
  fromUtf8Lossy : List UInt8 → String
  parseXoauth2 : List UInt8 → Option SaslBearer
  parseOauthbearer : List UInt8 → Option SaslBearer
  /-- The error challenge of a refused token, in base64. -/
  saslBearerError : Bool → String
  /-- The message again, or the answer that refuses it. -/
  mimeStructure : List UInt8 → Except String (List UInt8)
  /-- How many `Received` headers a message has. -/
  hops : List UInt8 → Nat
  normalizeLineEndings : List UInt8 → List UInt8
  submit : Option Account → Envelope → List Recipient → List UInt8 → String
  receive : Envelope → List Recipient → List UInt8 → String

/-- `.unwrap_or(..)` of a store call. -/
def orElse {α : Type} (fallback : α) : Except StoreError α → α
  | .ok value => value
  | .error _ => fallback

def eqIgnoreAsciiCase (a b : String) : Bool := sqlLower a == sqlLower b

def looksLikeSrs (localPart : String) : Bool :=
  sqlLower (String.ofList (localPart.toList.take 5)) == "srs0="

/-! ## 3. The session -/

/-- What a step did, beside its replies. -/
inductive Deed
  | reply (text : String)
  /-- RSET, a greeting or a handshake, or a message that was too big: the transaction is over. -/
  | forgotten
  /-- MAIL was accepted. -/
  | sender (w : World) (account : Option Account) (address : String)
  /-- RCPT was accepted, and these entries are new. -/
  | recipient (w : World) (address : String) (entries : List Recipient)
  /-- A chunk is acknowledged, or the last one is complete. -/
  | chunk (bytes : List UInt8)
  /-- The data is complete, and arrived in these pieces. -/
  | data (pieces : List (List UInt8))
  /-- `finish_message`. -/
  | handed (account : Option Account) (envelope : Option Envelope) (recipients : List Recipient)
      (message : List UInt8)

structure Session where
  kind : ListenerKind
  /-- `peer`. -/
  isTls : Bool
  helo : Option String := none
  account : Option Account := none
  envelope : Option Envelope := none
  recipients : List Recipient := []
  message : List UInt8 := []
  messageTooBig : Bool := false
  errors : Nat := 0
  authFailures : Nat := 0
  messagesEnded : Nat := 0
  log : List Deed := []

def maxErrors : Nat := 10

def maxAuthFailures : Nat := 3

def maxHops : Nat := 50

def Session.did (s : Session) (deed : Deed) : Session := { s with log := s.log ++ [deed] }

def Session.reply (s : Session) (text : String) : Session := s.did (.reply text)

/-- Counts a protocol error.  True when the connection was closed. -/
def Session.error (s : Session) (text : String) : Session × Bool :=
  let s := { s with errors := s.errors + 1 }
  if s.errors ≥ maxErrors then
    (s.reply "421 4.7.0 Too many errors, closing connection\r\n", true)
  else (s.reply text, false)

/-- What the commands do with `error`: they go on either way. -/
def Session.fail (s : Session) (text : String) : Session := (s.error text).1

def Session.resetTransaction (s : Session) : Session :=
  { s with envelope := none, recipients := [], message := [], messageTooBig := false }.did .forgotten

inductive AuthStep
  | plainResponse
  | loginUsername
  | loginPassword (username : String)
  | bearerResponse (xoauth2 : Bool)
  /-- A refused token got its error challenge; the app's answer only ends the exchange. -/
  | bearerFailed
  deriving DecidableEq

inductive Next
  | continue
  | data
  | bdat (size : Nat) (last : Bool)
  | bdatDiscard (size : Nat)
  | auth (step : AuthStep)
  | startTls
  | quit

inductive Mechanism
  | plain
  | login
  | oauthbearer
  | xoauth2
  | other
  deriving DecidableEq

structure MailFrom where
  address : String
  size : Nat := 0
  envId : Option String := none
  deriving DecidableEq

structure RcptTo where
  address : String
  flags : Nat := 0
  orcpt : Option String := none
  deriving DecidableEq

inductive Request
  | ehlo (host : String)
  | helo (host : String)
  | startTls
  | auth (mechanism : Mechanism) (initialResponse : String)
  | mail (sender : MailFrom)
  | rcpt (recipient : RcptTo)
  | data
  | bdat (chunkSize : Nat) (isLast : Bool)
  | rset
  | noop
  | quit
  | vrfy
  | help
  /-- LHLO, EXPN, ETRN, ATRN and BURL. -/
  | notImplemented
  deriving DecidableEq

/-! ## 4. Greetings and logins -/

def Session.authAvailable (w : World) (s : Session) : Bool :=
  s.kind.isSubmission && (s.isTls || !w.requireTlsForAuth)

/-- The answer to EHLO, one line each. -/
def ehloLines (w : World) (s : Session) (host : String) : List String :=
  [s!"{w.hostname} Hello {host}", "PIPELINING", "8BITMIME", "SMTPUTF8", "ENHANCEDSTATUSCODES",
    "CHUNKING", s!"SIZE {w.maxMessageSize}"] ++
    (if !s.isTls && w.offersTls then ["STARTTLS"] else []) ++
    (if s.authAvailable w && s.account.isNone then ["AUTH PLAIN LOGIN OAUTHBEARER XOAUTH2"] else [])

def ehloResponse : List String → String
  | [] => ""
  | [line] => s!"250 {line}\r\n"
  | line :: lines => s!"250-{line}\r\n" ++ ehloResponse lines

def Session.ehlo (w : World) (host : String) (extended : Bool) (s : Session) : Session :=
  let s := s.resetTransaction
  if extended then { s with helo := some host }.reply (ehloResponse (ehloLines w s host))
  else { s with helo := some host }.reply s!"250 {w.hostname}\r\n"

/-- `start_tls`: a handshake that fails ends the session. -/
def Session.startTls (w : World) (s : Session) : Option Session :=
  if w.handshake then
    -- RFC 3207: forget everything learned before the handshake.
    some { s with isTls := true, helo := none }.resetTransaction
  else none

def decodeUtf8 (w : World) (value : String) : Option String :=
  (w.decodeBase64 (w.text.trim value)).bind w.decodeUtf8

def Session.succeed (account : Account) (s : Session) : Session × Next :=
  ({ s with account := some account }.reply "235 2.7.0 Authentication succeeded\r\n", .continue)

def Session.checkCredentials (w : World) (login password : String) (s : Session) : Session × Next :=
  if w.begin login then
    match w.authenticateMail login password with
    | .ok (.ok account) => s.succeed account
    | .ok .denied =>
      let s := { s with authFailures := s.authFailures + 1 }
      if s.authFailures ≥ maxAuthFailures then
        (s.reply "421 4.7.0 Too many failed logins, closing connection\r\n", .quit)
      else (s.reply "535 5.7.8 Authentication credentials invalid\r\n", .continue)
    | .error _ => (s.reply "454 4.7.0 Temporary authentication failure\r\n", .continue)
  else (s.reply "454 4.7.0 Too many failed logins, try again later\r\n", .continue)

def Session.authPlain (w : World) (response : String) (s : Session) : Session × Next :=
  match (w.decodeBase64 response).map (·.splitOn 0) with
  | some [authzid, authcid, password] =>
    let authzid := w.fromUtf8Lossy authzid
    let authcid := w.fromUtf8Lossy authcid
    if authzid ≠ "" ∧ !eqIgnoreAsciiCase authzid authcid then
      (s.fail "535 5.7.8 Authorization identity must match the login\r\n", .continue)
    else s.checkCredentials w authcid (w.fromUtf8Lossy password)
  | _ => (s.fail "501 5.5.2 Invalid PLAIN authentication data\r\n", .continue)

def saslUserMatches (w : World) (user : Option String) (login : String) : Bool :=
  user.all fun user => eqIgnoreAsciiCase (w.text.trim user) login

def Session.tokenRefused (w : World) (xoauth2 : Bool) (s : Session) : Session × Next :=
  ({ s with authFailures := s.authFailures + 1 }.reply s!"334 {w.saslBearerError xoauth2}\r\n",
    .auth .bearerFailed)

def Session.authBearer (w : World) (response : String) (xoauth2 : Bool) (s : Session) :
    Session × Next :=
  match w.decodeBase64 (w.text.trim response) with
  | none => (s.fail "501 5.5.2 Invalid base64 data\r\n", .continue)
  | some message =>
    match if xoauth2 then w.parseXoauth2 message else w.parseOauthbearer message with
    | none => (s.fail "501 5.5.2 Invalid token authentication data\r\n", .continue)
    | some parsed =>
      match w.authenticateOauth parsed.token with
      | .ok (.ok account) =>
        if saslUserMatches w parsed.user account.login then s.succeed account
        else s.tokenRefused w xoauth2
      | .ok .denied => s.tokenRefused w xoauth2
      | .error _ => (s.reply "454 4.7.0 Temporary authentication failure\r\n", .continue)

def Session.authRefused (s : Session) : Session × Next :=
  if s.authFailures ≥ maxAuthFailures then
    (s.reply "421 4.7.0 Too many failed logins, closing connection\r\n", .quit)
  else (s.reply "535 5.7.8 Authentication credentials invalid\r\n", .continue)

/-- The login name of AUTH LOGIN, from the command or from the line after it. -/
def Session.loginUsername (w : World) (line : String) (s : Session) : Session × Next :=
  match decodeUtf8 w line with
  | some username => (s.reply "334 UGFzc3dvcmQ6\r\n", .auth (.loginPassword username))
  | none => (s.fail "501 5.5.2 Invalid base64 data\r\n", .continue)

def Session.auth (w : World) (mechanism : Mechanism) (initialResponse : String) (s : Session) :
    Session × Next :=
  if !s.kind.isSubmission then
    (s.fail "503 5.5.1 Authentication is only available on the submission ports\r\n", .continue)
  else if !s.authAvailable w then
    (s.fail "538 5.7.11 Encryption required, use STARTTLS first\r\n", .continue)
  else if s.account.isSome then (s.fail "503 5.5.1 Already authenticated\r\n", .continue)
  else if s.envelope.isSome then
    (s.fail "503 5.5.1 AUTH is not allowed during a mail transaction\r\n", .continue)
  else if w.isBlocked then
    (s.reply "421 4.7.0 Too many failed logins from your network, try again later\r\n", .quit)
  else
    let initial := w.text.trim initialResponse
    let initial := if initial = "=" then "" else initial
    match mechanism with
    | .plain =>
      if initial = "" then (s.reply "334 \r\n", .auth .plainResponse) else s.authPlain w initial
    | .login =>
      if initial = "" then (s.reply "334 VXNlcm5hbWU6\r\n", .auth .loginUsername)
      else s.loginUsername w initial
    | .oauthbearer =>
      if initial = "" then (s.reply "334 \r\n", .auth (.bearerResponse false))
      else s.authBearer w initial false
    | .xoauth2 =>
      if initial = "" then (s.reply "334 \r\n", .auth (.bearerResponse true))
      else s.authBearer w initial true
    | .other => (s.fail "504 5.5.4 Authentication mechanism not supported\r\n", .continue)

def Session.authLine (w : World) (step : AuthStep) (line : String) (s : Session) : Session × Next :=
  if step = .bearerFailed then s.authRefused
  else if line = "*" then (s.fail "501 5.0.0 Authentication cancelled\r\n", .continue)
  else
    match step with
    | .plainResponse => s.authPlain w line
    | .loginUsername => s.loginUsername w line
    | .loginPassword username =>
      match decodeUtf8 w line with
      | some password => s.checkCredentials w username password
      | none => (s.fail "501 5.5.2 Invalid base64 data\r\n", .continue)
    | .bearerResponse xoauth2 => s.authBearer w line xoauth2
    | .bearerFailed => s.authRefused

/-! ## 5. MAIL and RCPT -/

def Session.mail (w : World) (sender : MailFrom) (s : Session) : Session :=
  if s.helo.isNone then s.fail "503 5.5.1 Say EHLO first\r\n"
  else if s.envelope.isSome then s.fail "503 5.5.1 Nested MAIL command\r\n"
  else if s.kind.isSubmission && s.account.isNone then s.fail "530 5.7.0 Authentication required\r\n"
  else if sender.size > w.maxMessageSize then s.fail "552 5.3.4 Message too big\r\n"
  else
    let address := w.text.trim sender.address
    let allowed := s.account.all fun account =>
      address ≠ "" && orElse false (w.accountOwnsAddress account.id address)
    if allowed then
      ({ s with envelope := some { address, size := sender.size, envId := sender.envId } }.reply
        "250 2.1.0 Sender OK\r\n").did (.sender w s.account address)
    else s.fail s!"553 5.7.1 You are not allowed to send as <{address}>\r\n"

/-- A recipient is taken: an address that is in the list already gets no second entry. -/
def Session.take (w : World) (address : String) (entries : List Recipient) (s : Session) : Session :=
  let entries := if s.recipients.any (·.address == address) then [] else entries
  ({ s with recipients := s.recipients ++ entries }.reply "250 2.1.5 Recipient OK\r\n").did
    (.recipient w address entries)

/-- The members of a group, each once, and each where mail for them goes. -/
def memberEntries (w : World) : List Int → List Int → List Int
  | entries, [] => entries
  | entries, member :: members =>
    match w.deliveryTarget member with
    | .ok (some target) =>
      memberEntries w (if target ∈ entries then entries else entries ++ [target]) members
    | _ => memberEntries w entries members

/-- `group_rcpt`: the sender has to be allowed to write to the group, and then every member gets an
entry of their own. -/
def Session.groupRcpt (w : World) (address : String) (group : GroupDelivery) (recipient : RcptTo)
    (s : Session) : Session :=
  let sender := (s.envelope.map (·.address)).getD ""
  match w.groupAccepts group sender (s.account.map (·.id)) with
  | .error _ => s.reply "451 4.3.0 Temporary lookup failure\r\n"
  | .ok false =>
    match group.whoMaySend with
    | .domain =>
      let domain := ((rsplitOnce '@' group.address.toList).map fun p => String.ofList p.2).getD ""
      s.fail s!"550 5.7.1 <{address}>: Only addresses of {domain} may write to this group\r\n"
    | _ => s.fail s!"550 5.7.1 <{address}>: Only members of this group may write to it\r\n"
  | .ok true =>
    if s.recipients.any (·.address == address) then s.take w address []
    else
      -- On submission the members are looked up again when the message is handed on.
      let entries := if s.kind.isSubmission then [] else memberEntries w [] group.members
      if !s.kind.isSubmission && entries.isEmpty then
        s.fail s!"550 5.1.1 <{address}>: This address does not take mail\r\n"
      else
        let localAccounts := if s.kind.isSubmission then [none] else entries.map some
        s.take w address <| localAccounts.map fun localAccount =>
          { address, localAccount,
            group := some { address := group.address, restricted := group.whoMaySend != .anyone },
            notifyFlags := recipient.flags, orcpt := recipient.orcpt }

/-- The last part of `rcpt`: an address that is none of the special ones. -/
def Session.personRcpt (w : World) (address domain : String) (recipient : RcptTo) (s : Session) :
    Session :=
  -- A deleted masked address is gone for good; the lookup below finds nobody for it either.
  let masked := orElse none (w.maskedDelivery address)
  let entry : Recipient :=
    { address, masked := masked.filter (·.deliversTo.isSome),
      notifyFlags := recipient.flags, orcpt := recipient.orcpt }
  match w.resolveRecipient address with
  | .error _ => s.reply "451 4.3.0 Temporary lookup failure\r\n"
  | .ok none =>
    if orElse false (w.isLocalDomain domain) then
      s.fail s!"550 5.1.1 <{address}>: No such mailbox here\r\n"
    else if !s.kind.isSubmission then s.fail "550 5.7.1 Relaying denied\r\n"
    else s.take w address [entry]
  | .ok (some accountId) =>
    match w.accountById accountId with
    | .ok (some account) =>
      if !account.hasMailbox then
        match orElse none (w.deliveryTarget account.id) with
        | none => s.fail s!"550 5.1.1 <{address}>: This address does not take mail\r\n"
        | some target => s.take w address [{ entry with localAccount := some target }]
      else if 0 < account.quotaBytes ∧
          account.quotaBytes < account.usedBytes + (s.envelope.map (·.size)).getD 0 then
        s.reply s!"452 4.2.2 <{address}>: Mailbox is full\r\n"
      else s.take w address [{ entry with localAccount := some accountId }]
    | _ => s.take w address [{ entry with localAccount := some accountId }]

def Session.rcpt (w : World) (recipient : RcptTo) (s : Session) : Session :=
  match s.envelope with
  | none => s.fail "503 5.5.1 Send MAIL first\r\n"
  | some envelope =>
    if s.recipients.length ≥ w.maxRecipients then s.reply "452 4.5.3 Too many recipients\r\n"
    else
      match normalizeAddress w.text recipient.address with
      | .error _ => s.fail "501 5.1.3 Bad recipient address syntax\r\n"
      | .ok (localPart, domain) =>
        let address := localPart ++ "@" ++ domain
        let entry : Recipient :=
          { address, notifyFlags := recipient.flags, orcpt := recipient.orcpt }
        let isLocal := orElse false (w.isLocalDomain domain)
        -- An internal-only account, or one sending as the address of one, names nobody outside.
        if s.kind.isSubmission && !isLocal && (s.account.any fun account =>
            orElse false (w.accountInternalOnly account.id) ||
              orElse false (w.addressesInternalOnly [envelope.address])) then
          s.fail s!"550 5.7.1 <{address}>: This account may only send to addresses on this server\r\n"
        else if !s.kind.isSubmission && looksLikeSrs localPart && isLocal then
          match w.srsReverse address with
          -- Rewritten senders of forwarded mail only take delivery notices.
          | some original =>
            if envelope.address = "" then s.take w address [{ entry with srsReturn := some original }]
            else s.fail "550 5.7.1 This address only accepts delivery notices\r\n"
          | none => s.fail s!"550 5.1.1 <{address}>: No such mailbox here\r\n"
        else
          match (if s.kind.isSubmission then none else orElse none (w.reportRecipient address)) with
          | some kind => s.take w address [{ entry with report := some kind }]
          | none =>
            if !s.kind.isSubmission && w.traps.any (eqIgnoreAsciiCase · address) then
              s.take w address [{ entry with trap := true }]
            else
              -- On submission the targets are looked up again when the message is handed on.
              match orElse none (w.forwardAddressTargets address) with
              | some targets => s.take w address [{ entry with forwardTo := some targets }]
              | none =>
                match w.groupDelivery address with
                | .error _ => s.reply "451 4.3.0 Temporary lookup failure\r\n"
                | .ok (some group) => s.groupRcpt w address group recipient
                | .ok none => s.personRcpt w address domain recipient

/-! ## 6. The commands -/

def Session.command (w : World) (s : Session) : Request → Session × Next
  | .ehlo host => (s.ehlo w host true, .continue)
  | .helo host => (s.ehlo w host false, .continue)
  | .startTls =>
    if s.isTls || !w.offersTls then (s.fail "503 5.5.1 TLS is not available\r\n", .continue)
    else (s.reply "220 2.0.0 Ready to start TLS\r\n", .startTls)
  | .auth mechanism initialResponse => s.auth w mechanism initialResponse
  | .mail sender => (s.mail w sender, .continue)
  | .rcpt recipient => (s.rcpt w recipient, .continue)
  | .data =>
    if s.recipients.isEmpty then (s.fail "503 5.5.1 Send MAIL and RCPT first\r\n", .continue)
    else (s.reply "354 Start mail input; end with <CRLF>.<CRLF>\r\n", .data)
  | .bdat chunkSize isLast =>
    if s.recipients.isEmpty then (s, .bdatDiscard chunkSize) else (s, .bdat chunkSize isLast)
  | .rset => (s.resetTransaction.reply "250 2.0.0 OK\r\n", .continue)
  | .noop => (s.reply "250 2.0.0 OK\r\n", .continue)
  | .quit => (s.reply "221 2.0.0 Bye, see you soon\r\n", .quit)
  | .vrfy =>
    (s.reply "252 2.5.2 Cannot verify, but will accept the message and try\r\n", .continue)
  | .help => (s.reply "214 2.0.0 See https://github.com/MinifyX/UwUMail-Server\r\n", .continue)
  | .notImplemented => (s.fail "502 5.5.1 Command not implemented\r\n", .continue)

/-! ## 7. The end of a message -/

def Session.finishMessage (w : World) (raw : List UInt8) (s : Session) : Session :=
  let (envelope, recipients) := (s.envelope, s.recipients)
  let s := { s with envelope := none, recipients := [] }.did
    (.handed s.account envelope recipients raw)
  match envelope with
  | none => s.reply "503 5.5.1 Send MAIL first\r\n"
  | some envelope =>
    match w.mimeStructure raw with
    | .error answer => s.reply answer
    | .ok raw =>
      if w.hops raw > maxHops then s.reply "554 5.4.6 Too many hops, possible mail loop\r\n"
      else
        let raw := w.normalizeLineEndings raw
        if s.kind.isSubmission then s.reply (w.submit s.account envelope recipients raw)
        else s.reply (w.receive envelope recipients raw)

/-- `std::mem::take(&mut self.message)`, and the message is handed on. -/
def Session.endMessage (w : World) (s : Session) : Session :=
  { s with message := [], messagesEnded := s.messagesEnded + 1 }.finishMessage w s.message

/-- A message that was too big is over. -/
def Session.refuseMessage (s : Session) : Session :=
  { s.resetTransaction with messagesEnded := s.messagesEnded + 1 }.reply
    "552 5.3.4 Message too big\r\n"

/-! ## 8. The loop -/

/-- Why the receiver of commands could not read one. -/
inductive ProtoError
  | unknownCommand
  | responseTooLong
  | invalidSenderAddress
  | invalidRecipientAddress
  | other (what : String)
  deriving DecidableEq

def ProtoError.text : ProtoError → String
  | .unknownCommand => "500 5.5.1 Unknown command\r\n"
  | .responseTooLong => "500 5.5.6 Line too long\r\n"
  | .invalidSenderAddress => "501 5.1.7 Bad sender address syntax\r\n"
  | .invalidRecipientAddress => "501 5.1.3 Bad recipient address syntax\r\n"
  | .other what => s!"501 5.5.4 {what}\r\n"

inductive Heard
  | request (r : Request)
  | needsMoreData
  | error (e : ProtoError)
  deriving DecidableEq

/-- What a receiver of message bytes makes of those it is given: the receiver after them, the bytes
it left, the buffer it writes to, and whether it has all it wants. -/
structure Ingest (R : Type) where
  receiver : R
  rest : List UInt8
  buffer : List UInt8
  done : Bool

/-- **The receivers of `smtp_proto`.**  They read bytes off the front of what has arrived. -/
structure Wire where
  RequestReceiver : Type
  newRequest : RequestReceiver
  request : RequestReceiver → List UInt8 → RequestReceiver × List UInt8 × Heard
  DataReceiver : Type
  newData : DataReceiver
  data : DataReceiver → List UInt8 → List UInt8 → Ingest DataReceiver
  /-- What it leaves unread plays no part in what it does. -/
  data_reads : ∀ r bytes buffer, ∃ read, bytes = read ++ (data r bytes buffer).rest ∧
    data r read buffer = { data r bytes buffer with rest := [] }
  BdatReceiver : Type
  newBdat : Nat → Bool → BdatReceiver
  isLast : BdatReceiver → Bool
  bdat : BdatReceiver → List UInt8 → List UInt8 → Ingest BdatReceiver
  /-- The bytes of a chunk go to the buffer as they are. -/
  bdat_appends : ∀ r bytes buffer, ∃ read, bytes = read ++ (bdat r bytes buffer).rest ∧
    (bdat r bytes buffer).buffer = buffer ++ read
  /-- Reads a message and keeps nothing of it. -/
  DummyDataReceiver : Type
  newDummyData : DataReceiver → DummyDataReceiver
  newDummyBdat : Nat → DummyDataReceiver
  dummy : DummyDataReceiver → List UInt8 → DummyDataReceiver × List UInt8 × Bool
  LineReceiver : Type
  newLine : LineReceiver
  line : LineReceiver → List UInt8 → LineReceiver × List UInt8 × Bool
  lineBuffer : LineReceiver → List UInt8

/-- What data comes to that arrives in these pieces: the receiver after it, and the buffer. -/
def Wire.decoded (W : Wire) (pieces : List (List UInt8)) : W.DataReceiver × List UInt8 :=
  pieces.foldl (fun d piece =>
    let ingest := W.data d.1 piece d.2
    (ingest.receiver, ingest.buffer)) (W.newData, [])

variable {W : Wire}

inductive State (W : Wire)
  | command (receiver : W.RequestReceiver)
  | data (receiver : W.DataReceiver)
  | dataDiscard (receiver : W.DummyDataReceiver)
  | bdat (receiver : W.BdatReceiver)
  /-- A chunk of a message that is already too big: read and thrown away.  True for the last one. -/
  | bdatTooBig (receiver : W.DummyDataReceiver) (last : Bool)
  | bdatDiscard (receiver : W.DummyDataReceiver)
  | auth (step : AuthStep) (line : W.LineReceiver)

/-- A BDAT chunk may be empty: it is complete without another byte. -/
def State.isChunk : State W → Bool
  | .bdat _ | .bdatTooBig _ _ | .bdatDiscard _ => true
  | _ => false

structure Loop (W : Wire) where
  session : Session
  state : State W
  /-- The bytes of the last read that are still to be looked at, if any are. -/
  bytes : Option (List UInt8) := none
  /-- `max_message_size` when the session began. -/
  maxSize : Nat
  /-- What the receiver at work has read so far, piece by piece: no field of the source. -/
  arrived : List (List UInt8) := []
  /-- The session is over. -/
  closed : Bool := false

/-- `chunk_fits`, whose sum does not overflow. -/
def chunkFits (buffered size maxSize : Nat) : Bool := buffered + size ≤ maxSize

/-- The bytes a receiver took off the front. -/
def taken (bytes rest : List UInt8) : List UInt8 := bytes.take (bytes.length - rest.length)

/-- The end of a turn: with no bytes left the loop reads again, unless a chunk may be complete
already. -/
def Loop.goOn (l : Loop W) (rest : List UInt8) : Loop W :=
  { l with bytes := if rest.isEmpty && !l.state.isChunk then none else some rest }

/-- Back to the commands. -/
def Loop.toCommand (l : Loop W) (s : Session) (rest : List UInt8) : Loop W :=
  { l with session := s, state := .command W.newRequest, arrived := [] }.goOn rest

/-- What follows a command. -/
def Loop.next (w : World) (l : Loop W) (receiver : W.RequestReceiver) (s : Session)
    (rest : List UInt8) : Next → Loop W
  | .continue => { l with session := s, state := .command receiver }.goOn rest
  | .data =>
    { l with session := { s with message := [], messageTooBig := false }, state := .data W.newData,
             arrived := [] }.goOn rest
  | .bdat size last =>
    -- Judged by the size the chunk announces, before any of it is read.
    if !s.messageTooBig && chunkFits s.message.length size l.maxSize then
      { l with session := s, state := .bdat (W.newBdat size last), arrived := [] }.goOn rest
    else
      { l with session := { s with message := [], messageTooBig := true },
               state := .bdatTooBig (W.newDummyBdat size) last, arrived := [] }.goOn rest
  | .bdatDiscard size =>
    { l with session := s, state := .bdatDiscard (W.newDummyBdat size), arrived := [] }.goOn rest
  | .auth step => { l with session := s, state := .auth step W.newLine }.goOn rest
  | .startTls =>
    match s.startTls w with
    -- Anything the client pipelined before the handshake is discarded (RFC 3207).
    | some s => { l with session := s, state := .command W.newRequest, bytes := none }
    | none => { l with session := s, closed := true }
  | .quit => { l with session := s, closed := true }

/-- One turn of the inner loop, on the bytes that are there. -/
def Loop.turn (w : World) (l : Loop W) (bytes : List UInt8) : Loop W :=
  match l.state with
  | .command receiver =>
    match W.request receiver bytes with
    | (receiver, rest, .request request) =>
      let (s, next) := l.session.command w request
      l.next w receiver s rest next
    | (receiver, _, .needsMoreData) => { l with state := .command receiver, bytes := none }
    | (receiver, rest, .error e) =>
      let (s, closed) := l.session.error e.text
      { l with session := s, state := .command receiver, closed }.goOn rest
  | .data receiver =>
    let ingest := W.data receiver bytes l.session.message
    let arrived := l.arrived ++ [taken bytes ingest.rest]
    let s := { l.session with message := ingest.buffer }
    if ingest.done then l.toCommand ((s.did (.data arrived)).endMessage w) ingest.rest
    else if ingest.buffer.length > l.maxSize then
      { l with session := { s with message := [], messageTooBig := true },
               state := .dataDiscard (W.newDummyData ingest.receiver) }.goOn ingest.rest
    else { l with session := s, state := .data ingest.receiver, arrived, bytes := none }
  | .dataDiscard receiver =>
    match W.dummy receiver bytes with
    | (_, rest, true) => l.toCommand l.session.refuseMessage rest
    | (receiver, _, false) => { l with state := .dataDiscard receiver, bytes := none }
  | .bdat receiver =>
    let ingest := W.bdat receiver bytes l.session.message
    let arrived := l.arrived ++ [taken bytes ingest.rest]
    let s := { l.session with message := ingest.buffer }
    if ingest.done then
      let s := s.did (.chunk arrived.flatten)
      if W.isLast ingest.receiver then l.toCommand (s.endMessage w) ingest.rest
      else l.toCommand (s.reply "250 2.0.0 Chunk received\r\n") ingest.rest
    else { l with session := s, state := .bdat ingest.receiver, arrived, bytes := none }
  | .bdatTooBig receiver last =>
    match W.dummy receiver bytes with
    | (receiver, rest, done) =>
      let arrived := l.arrived ++ [taken bytes rest]
      if done then
        if last then l.toCommand l.session.refuseMessage rest
        else
          let s := l.session.did (.chunk arrived.flatten)
          l.toCommand (s.reply "250 2.0.0 Chunk received\r\n") rest
      else { l with state := .bdatTooBig receiver last, arrived, bytes := none }
  | .bdatDiscard receiver =>
    match W.dummy receiver bytes with
    | (_, rest, true) =>
      l.toCommand (l.session.reply "503 5.5.1 Send MAIL and RCPT first\r\n") rest
    | (receiver, _, false) => { l with state := .bdatDiscard receiver, bytes := none }
  | .auth step receiver =>
    match W.line receiver bytes with
    | (receiver, rest, true) =>
      let line := w.text.trim (w.fromUtf8Lossy (W.lineBuffer receiver))
      let (s, next) := l.session.authLine w step line
      let l := { l with session := s, state := .command W.newRequest }
      match next with
      | .auth step => { l with state := .auth step W.newLine }.goOn rest
      | .quit => { l with closed := true }
      | _ => l.goOn rest
    | (receiver, _, false) => { l with state := .auth step receiver, bytes := none }

inductive Event
  /-- The client sent something. -/
  | read (bytes : List UInt8)
  /-- The loop takes a turn, in a server that stands so. -/
  | turn (w : World)
  /-- The connection ends, or a deadline passes. -/
  | hangUp

def step (l : Loop W) (e : Event) : Option (Loop W) :=
  if l.closed then none
  else
    match e, l.bytes with
    | .read bytes, none => if bytes.isEmpty then none else some { l with bytes := some bytes }
    | .turn w, some bytes => some (l.turn w bytes)
    | .hangUp, _ => some { l with closed := true }
    | _, _ => none

/-- A session as it begins: greeted, and waiting for a command. -/
def start (W : Wire) (kind : ListenerKind) (hostname : String) (maxSize : Nat) : Loop W :=
  { session := { kind, isTls := kind = .submissionTls : Session }.reply
      s!"220 {hostname} ESMTP UwUMail ready\r\n"
    state := .command W.newRequest
    maxSize }

end UwuMail.Smtp
