/-
# Too many errors

`Session::error` counts a protocol error and says whether it was one too many: the tenth is answered
with 421, "closing connection", and the session has to end there.  The loop asks what it says for a
line that could not be read.  The commands do not ask: after their tenth error a client is told 421
and goes on as before, and a mailbox that is there (250) can still be told from one that is not
(421).

* A failed login is counted apart, and that count is heeded: **there are three at most, in every
  run**.
* **A session that was answered 421 takes no further step, and no more than ten errors are counted,
  exactly in the runs in which no command is refused when nine errors are on the books**
  (`errors_end_the_session`).

What a command refuses (`refuses`, §2) is a condition on the request, the session and the server
before it.  A mailbox that is full, a lookup that fails and what is answered for a message count for
nothing, by design.
-/
import UwuMail.Smtp.Transaction

namespace UwuMail.Smtp

open Directory (GroupDelivery normalizeAddress)

variable {W : Wire} {w : World} {kind : ListenerKind} {s s' : Session} {l l' : Loop W} {e : Event}

/-! ## 1. What is said of the end -/

/-- A reply with the code 421: the server closes the connection. -/
def closes (text : String) : Bool := text.toList.take 3 == ['4', '2', '1']

/-- What the replies so far come to. -/
structure Said where
  /-- 421 was answered. -/
  closing : Bool := false
  /-- A message was just handed on: the next reply is the answer for it, which `receive` and
  `submit` give. -/
  answering : Bool := false

/-- The same after one more deed. -/
def Said.after (h : Said) : Deed → Said
  | .reply text => { closing := h.closing || (!h.answering && closes text) }
  | .handed .. => { h with answering := true }
  | _ => h

def saidOf (log : List Deed) : Said := log.foldl Said.after {}

/-- The session was told 421 by its own commands or by its loop. -/
def said421 (log : List Deed) : Bool := (saidOf log).closing

/-- **Too many errors end the session**: where it was answered 421 it is over, and takes no further
command. -/
structure Ended (l : Loop W) : Prop where
  silent : said421 l.session.log → l.closed
  errors : l.session.errors ≤ maxErrors

/-! ## 2. What is refused -/

/-- Data for AUTH PLAIN that cannot be read, or that names two people. -/
def refusesPlain (w : World) (response : String) : Bool :=
  match (w.decodeBase64 response).map (·.splitOn 0) with
  | some [authzid, authcid, _] =>
    w.fromUtf8Lossy authzid ≠ "" && !eqIgnoreAsciiCase (w.fromUtf8Lossy authzid) (w.fromUtf8Lossy authcid)
  | _ => true

/-- A token that cannot be read. -/
def refusesBearer (w : World) (response : String) (xoauth2 : Bool) : Bool :=
  match w.decodeBase64 (w.text.trim response) with
  | none => true
  | some message => (if xoauth2 then w.parseXoauth2 message else w.parseOauthbearer message).isNone

/-- What AUTH is given after the mechanism is more than nothing, and cannot be read. -/
def refusesInitial (w : World) (mechanism : Mechanism) (initial : String) : Bool :=
  match mechanism with
  | .plain => initial ≠ "" && refusesPlain w initial
  | .login => initial ≠ "" && (decodeUtf8 w initial).isNone
  | .oauthbearer => initial ≠ "" && refusesBearer w initial false
  | .xoauth2 => initial ≠ "" && refusesBearer w initial true
  | .other => true

def refusesAuth (w : World) (s : Session) (mechanism : Mechanism) (initialResponse : String) : Bool :=
  let initial := w.text.trim initialResponse
  !s.kind.isSubmission || !s.authAvailable w || s.account.isSome || s.envelope.isSome ||
    !w.isBlocked && refusesInitial w mechanism (if initial = "=" then "" else initial)

/-- A line of the dialogue of a login. -/
def refusesLine (w : World) (step : AuthStep) (line : String) : Bool :=
  step ≠ .bearerFailed && (line == "*" ||
    match step with
    | .plainResponse => refusesPlain w line
    | .loginUsername => (decodeUtf8 w line).isNone
    | .loginPassword _ => (decodeUtf8 w line).isNone
    | .bearerResponse xoauth2 => refusesBearer w line xoauth2
    | .bearerFailed => false)

def refusesMail (w : World) (s : Session) (sender : MailFrom) : Bool :=
  s.helo.isNone || s.envelope.isSome || s.kind.isSubmission && s.account.isNone ||
    sender.size > w.maxMessageSize ||
    !s.account.all fun account => w.text.trim sender.address ≠ "" &&
      orElse false (w.accountOwnsAddress account.id (w.text.trim sender.address))

/-- A group the sender may not write to, or that has nobody. -/
def refusesGroup (w : World) (s : Session) (address : String) (group : GroupDelivery) : Bool :=
  match w.groupAccepts group ((s.envelope.map (·.address)).getD "") (s.account.map (·.id)) with
  | .error _ => false
  | .ok false => true
  | .ok true => !s.recipients.any (·.address == address) && !s.kind.isSubmission &&
    (memberEntries w [] group.members).isEmpty

/-- Nobody here, and not for us to pass on; or an account that takes no mail. -/
def refusesPerson (w : World) (s : Session) (address domain : String) : Bool :=
  match w.resolveRecipient address with
  | .error _ => false
  | .ok none => orElse false (w.isLocalDomain domain) || !s.kind.isSubmission
  | .ok (some accountId) =>
    match w.accountById accountId with
    | .ok (some account) => !account.hasMailbox && (orElse none (w.deliveryTarget account.id)).isNone
    | _ => false

def refusesRcpt (w : World) (s : Session) (recipient : RcptTo) : Bool :=
  match s.envelope with
  | none => true
  | some envelope =>
    if s.recipients.length ≥ w.maxRecipients then false
    else
      match normalizeAddress w.text recipient.address with
      | .error _ => true
      | .ok (localPart, domain) =>
        let address := localPart ++ "@" ++ domain
        let isLocal := orElse false (w.isLocalDomain domain)
        if s.kind.isSubmission && !isLocal && (s.account.any fun account =>
            orElse false (w.accountInternalOnly account.id) ||
              orElse false (w.addressesInternalOnly [envelope.address])) then true
        else if !s.kind.isSubmission && looksLikeSrs localPart && isLocal then
          match w.srsReverse address with
          | some _ => envelope.address ≠ ""
          | none => true
        else if (if s.kind.isSubmission then none
          else orElse none (w.reportRecipient address)).isSome then false
        else if !s.kind.isSubmission && w.traps.any (eqIgnoreAsciiCase · address) then false
        else if (orElse none (w.forwardAddressTargets address)).isSome then false
        else
          match w.groupDelivery address with
          | .error _ => false
          | .ok (some group) => refusesGroup w s address group
          | .ok none => refusesPerson w s address domain

/-- The requests a session answers with an error, as it and the server stand. -/
def refuses (w : World) (s : Session) : Request → Bool
  | .startTls => s.isTls || !w.offersTls
  | .auth mechanism initialResponse => refusesAuth w s mechanism initialResponse
  | .mail sender => refusesMail w s sender
  | .rcpt recipient => refusesRcpt w s recipient
  | .data => s.recipients.isEmpty
  | .notImplemented => true
  | _ => false

/-- What a turn refuses that is not for the loop to refuse: a command, or a line of a login. -/
def refusedBy (w : World) (l : Loop W) (bytes : List UInt8) : Bool :=
  match l.state with
  | .command receiver =>
    match W.request receiver bytes with
    | (_, _, .request request) => refuses w l.session request
    | _ => false
  | .auth step receiver =>
    match W.line receiver bytes with
    | (receiver, _, true) => refusesLine w step (w.text.trim (w.fromUtf8Lossy (W.lineBuffer receiver)))
    | _ => false
  | _ => false

/-- **No command is refused when it would be the tenth error**: the tenth is a line that cannot be
read. -/
def Heeded (l : Loop W) (e : Event) : Prop :=
  ∀ w bytes, e = .turn w → l.bytes = some bytes → refusedBy w l bytes → l.session.errors + 1 < maxErrors

/-! ## 3. What a step says and counts -/

@[simp] theorem saidOf_snoc {log : List Deed} {d : Deed} : saidOf (log ++ [d]) = (saidOf log).after d := by
  simp [saidOf]

/-- What was heard, when nothing waits for the answer of a message. -/
def Said.of (closing : Bool) : Said := { closing }

theorem Said.eq_of {h : Said} (hlast : h.answering = false) : h = .of h.closing := by
  cases h
  cases hlast
  rfl

theorem saidOf_reply (hlast : (saidOf s.log).answering = false) (text : String) :
    saidOf (s.reply text).log = .of (said421 s.log || closes text) := by
  simp [Session.reply, Session.did, Said.after, Said.of, said421, hlast]

/-- A step that counts an error, or none, and says 421 for nothing else. -/
structure Counts (b : Bool) (s s' : Session) : Prop where
  errors : s'.errors = s.errors + b.toNat
  failures : s'.authFailures = s.authFailures
  heard : (saidOf s.log).answering = false →
    saidOf s'.log = .of (said421 s.log || (b && decide (maxErrors ≤ s.errors + 1)))

theorem counts_reply (s : Session) {text : String} (h : closes text = false) :
    Counts false s (s.reply text) where
  errors := rfl
  failures := rfl
  heard hlast := by rw [saidOf_reply hlast, h, Bool.false_and]

theorem counts_fail (s : Session) {text : String} (h : closes text = false) :
    Counts true s (s.fail text) := by
  unfold Session.fail Session.error
  by_cases hfull : maxErrors ≤ s.errors + 1
  · rw [if_pos hfull]
    refine ⟨rfl, rfl, fun hlast => ?_⟩
    have hclose : closes "421 4.7.0 Too many errors, closing connection\r\n" = true := rfl
    have hsaid := saidOf_reply (s := { s with errors := s.errors + 1 }) hlast
      "421 4.7.0 Too many errors, closing connection\r\n"
    rw [hclose] at hsaid
    rw [decide_eq_true hfull]
    exact hsaid
  · rw [if_neg hfull]
    refine ⟨rfl, rfl, fun hlast => ?_⟩
    have hsaid := saidOf_reply (s := { s with errors := s.errors + 1 }) hlast text
    rw [h] at hsaid
    rw [decide_eq_false hfull]
    exact hsaid

/-- A deed that is no reply says nothing. -/
theorem Counts.did {b : Bool} {d : Deed} (h : Counts b s s') (hd : ∀ said : Said, said.after d = said) :
    Counts b s (s'.did d) where
  errors := h.errors
  failures := h.failures
  heard hlast := by rw [Session.did, saidOf_snoc, hd, h.heard hlast]

theorem counts_take (address : String) (entries : List Recipient) :
    Counts false s (s.take w address entries) := by
  have hreply : Counts false s ({ s with recipients := s.recipients ++
      (if s.recipients.any (·.address == address) then [] else entries)
          }.reply "250 2.1.5 Recipient OK\r\n") :=
    ⟨rfl, rfl, (counts_reply { s with recipients := _ } rfl).heard⟩
  exact hreply.did fun _ => rfl

theorem counts_mail (sender : MailFrom) : Counts (refusesMail w s sender) s (s.mail w sender) := by
  unfold Session.mail refusesMail
  generalize w.text.trim sender.address = address
  by_cases hhelo : s.helo.isNone
  · simp only [hhelo, if_true, Bool.true_or]
    exact counts_fail s rfl
  by_cases hopen : s.envelope.isSome
  · simp only [hhelo, hopen, Bool.false_eq_true, if_true, if_false, Bool.or_true, Bool.true_or]
    exact counts_fail s rfl
  by_cases hlogin : s.kind.isSubmission && s.account.isNone
  · simp only [hhelo, hopen, hlogin, Bool.false_eq_true, if_true, if_false, Bool.or_true, Bool.true_or]
    exact counts_fail s rfl
  by_cases hsize : sender.size > w.maxMessageSize
  · simp only [hhelo, hopen, hlogin, hsize, Bool.false_eq_true, if_true, if_false, Bool.or_true, Bool.true_or,
      decide_true]
    exact counts_fail s rfl
  simp only [hhelo, hopen, hlogin, hsize, Bool.false_eq_true, if_false, Bool.false_or, decide_false]
  cases s.account.all fun account => address ≠ "" &&
    orElse false (w.accountOwnsAddress account.id address) with
  | true =>
    have hreply : Counts false s ({ s with envelope := some ⟨address, sender.size, sender.envId⟩ }.reply
        "250 2.1.0 Sender OK\r\n") :=
      ⟨rfl, rfl, (counts_reply { s with envelope := _ } rfl).heard⟩
    exact hreply.did fun _ => rfl
  | false => exact counts_fail s (by simp [closes, toString])

theorem counts_groupRcpt (address : String) (group : GroupDelivery) (recipient : RcptTo) :
    Counts (refusesGroup w s address group) s (s.groupRcpt w address group recipient) := by
  unfold Session.groupRcpt refusesGroup
  dsimp only
  generalize w.groupAccepts group ((s.envelope.map (·.address)).getD "") (s.account.map (·.id)) = accepts
  rcases accepts with _ | accepts | accepts
  · exact counts_reply s rfl
  · cases group.whoMaySend with
    | domain => exact counts_fail s (by simp [closes, toString])
    | _ => exact counts_fail s (by simp [closes, toString])
  dsimp only
  cases s.recipients.any (·.address == address) with
  | true => exact counts_take _ _
  | false =>
    cases s.kind.isSubmission with
    | true => exact counts_take _ _
    | false =>
      simp only [Bool.not_false, Bool.true_and, Bool.false_eq_true, if_false]
      cases (memberEntries w [] group.members).isEmpty with
      | true => exact counts_fail s (by simp [closes, toString])
      | false => exact counts_take _ _

theorem counts_personRcpt (address domain : String) (recipient : RcptTo) :
    Counts (refusesPerson w s address domain) s (s.personRcpt w address domain recipient) := by
  unfold Session.personRcpt refusesPerson
  rcases w.resolveRecipient address with _ | _ | accountId
  · exact counts_reply s rfl
  · dsimp only
    cases orElse false (w.isLocalDomain domain) with
    | true => exact counts_fail s (by simp [closes, toString])
    | false =>
      cases s.kind.isSubmission with
      | true => exact counts_take _ _
      | false => exact counts_fail s rfl
  · dsimp only
    rcases w.accountById accountId with _ | _ | account
    · exact counts_take _ _
    · exact counts_take _ _
    · dsimp only
      cases account.hasMailbox with
      | true =>
        simp only [Bool.not_true, Bool.false_eq_true, if_false, Bool.false_and]
        split
        · exact counts_reply s (by simp [closes, toString])
        · exact counts_take _ _
      | false =>
        cases orElse none (w.deliveryTarget account.id) with
        | none => exact counts_fail s (by simp [closes, toString])
        | some target => exact counts_take _ _

theorem counts_rcpt (recipient : RcptTo) : Counts (refusesRcpt w s recipient) s (s.rcpt w recipient) := by
  unfold Session.rcpt refusesRcpt
  cases s.envelope with
  | none => exact counts_fail s rfl
  | some envelope =>
  dsimp only
  by_cases hfull : s.recipients.length ≥ w.maxRecipients
  · rw [if_pos hfull, if_pos hfull]
    exact counts_reply s rfl
  rw [if_neg hfull, if_neg hfull]
  rcases normalizeAddress w.text recipient.address with _ | ⟨localPart, domain⟩
  · exact counts_fail s rfl
  dsimp only
  generalize localPart ++ "@" ++ domain = address
  cases s.kind.isSubmission && !orElse false (w.isLocalDomain domain) && s.account.any fun account =>
      orElse false (w.accountInternalOnly account.id) ||
        orElse false (w.addressesInternalOnly [envelope.address]) with
  | true => exact counts_fail s (by simp [closes, toString])
  | false =>
  simp only [Bool.false_eq_true, if_false]
  cases !s.kind.isSubmission && looksLikeSrs localPart && orElse false (w.isLocalDomain domain) with
  | true =>
    simp only [if_true]
    cases w.srsReverse address with
    | none => exact counts_fail s (by simp [closes, toString])
    | some original =>
      dsimp only
      by_cases hempty : envelope.address = ""
      · rw [if_pos hempty, decide_eq_false (not_not.2 hempty)]
        exact counts_take _ _
      · rw [if_neg hempty, decide_eq_true hempty]
        exact counts_fail s rfl
  | false =>
  simp only [Bool.false_eq_true, if_false]
  cases (if s.kind.isSubmission then none else orElse none (w.reportRecipient address)) with
  | some kind => exact counts_take _ _
  | none =>
  dsimp only [Option.isSome_none]
  cases !s.kind.isSubmission && w.traps.any (eqIgnoreAsciiCase · address) with
  | true => exact counts_take _ _
  | false =>
  simp only [Bool.false_eq_true, if_false]
  cases orElse none (w.forwardAddressTargets address) with
  | some targets => exact counts_take _ _
  | none =>
  dsimp only [Option.isSome_none]
  rcases w.groupDelivery address with _ | _ | group
  · exact counts_reply s rfl
  · exact counts_personRcpt _ _ recipient
  · exact counts_groupRcpt _ _ recipient

/-- What a command comes to: it counts an error and the session goes on, or it counts none and says
421 only to quit. The third failed login leads out of the session. -/
structure Commanded (b : Bool) (s : Session) (p : Session × Next) : Prop where
  errors : p.1.errors = s.errors + b.toNat
  goesOn : b → p.2 = .continue
  heard : (saidOf s.log).answering = false → p.2 ≠ .quit →
    saidOf p.1.log = .of (said421 s.log || (b && decide (maxErrors ≤ s.errors + 1)))
  failures : s.authFailures < maxAuthFailures → p.1.authFailures ≤ maxAuthFailures ∧
    (p.2 = .quit ∨ p.2 = .auth .bearerFailed ∨ p.1.authFailures < maxAuthFailures)

theorem Counts.commanded {b : Bool} {next : Next} (h : Counts b s s') (hnext : b → next = .continue) :
    Commanded b s (s', next) where
  errors := h.errors
  goesOn := hnext
  heard hlast _ := h.heard hlast
  failures hleft := by
    have hsame : s'.authFailures < maxAuthFailures := h.failures ▸ hleft
    exact ⟨Nat.le_of_lt hsame, .inr (.inr hsame)⟩

theorem commanded_reply (s : Session) {text : String} (h : closes text = false) (next : Next) :
    Commanded false s (s.reply text, next) :=
  (counts_reply s h).commanded fun hb => nomatch hb

theorem commanded_fail (s : Session) {text : String} (h : closes text = false) :
    Commanded true s (s.fail text, .continue) :=
  (counts_fail s h).commanded fun _ => rfl

/-- The last words of a session. -/
theorem commanded_quit (s : Session) (text : String) : Commanded false s (s.reply text, .quit) where
  errors := rfl
  goesOn hb := nomatch hb
  heard _ hnext := absurd rfl hnext
  failures hleft := ⟨Nat.le_of_lt hleft, .inl rfl⟩

theorem commanded_succeed (s : Session) (account : Account) : Commanded false s (s.succeed account) :=
  ⟨rfl, (nomatch ·), fun hlast _ => (counts_reply { s with account := some account } rfl).heard hlast,
    fun hleft => ⟨Nat.le_of_lt hleft, .inr (.inr hleft)⟩⟩

theorem commanded_tokenRefused (s : Session) (xoauth2 : Bool) :
    Commanded false s (s.tokenRefused w xoauth2) :=
  ⟨rfl, (nomatch ·),
    fun hlast _ => (counts_reply { s with authFailures := s.authFailures + 1 }
      (by simp [closes, toString])).heard hlast,
    fun hleft => ⟨hleft, .inr (.inl rfl)⟩⟩

theorem commanded_checkCredentials (login password : String) :
    Commanded false s (s.checkCredentials w login password) := by
  unfold Session.checkCredentials
  split
  · split
    · exact commanded_succeed s _
    · dsimp only
      split
      · exact ⟨rfl, (nomatch ·), fun _ hnext => absurd rfl hnext, fun hleft => ⟨hleft, .inl rfl⟩⟩
      · rename_i hroom
        exact ⟨rfl, (nomatch ·),
          fun hlast _ => (counts_reply { s with authFailures := s.authFailures + 1 } rfl).heard hlast,
          fun hleft => ⟨hleft, .inr (.inr (Nat.not_le.1 hroom))⟩⟩
    · exact commanded_reply s rfl _
  · exact commanded_reply s rfl _

theorem commanded_authPlain (response : String) :
    Commanded (refusesPlain w response) s (s.authPlain w response) := by
  unfold Session.authPlain refusesPlain
  generalize (w.decodeBase64 response).map (·.splitOn 0) = parts
  rcases parts with _ | _ | ⟨authzid, _ | ⟨authcid, _ | ⟨password, _ | _⟩⟩⟩
  case some.cons.cons.cons.nil =>
    dsimp only
    by_cases hnone : w.fromUtf8Lossy authzid = ""
    · rw [decide_eq_false (not_not.2 hnone), if_neg fun h => h.1 hnone]
      exact commanded_checkCredentials _ _
    · rw [decide_eq_true hnone, Bool.true_and]
      cases heq : eqIgnoreAsciiCase (w.fromUtf8Lossy authzid) (w.fromUtf8Lossy authcid) with
      | true =>
        rw [if_neg fun h => by simp at h]
        exact commanded_checkCredentials _ _
      | false =>
        rw [if_pos ⟨hnone, rfl⟩]
        exact commanded_fail s rfl
  all_goals exact commanded_fail s rfl

theorem commanded_authBearer (response : String) (xoauth2 : Bool) :
    Commanded (refusesBearer w response xoauth2) s (s.authBearer w response xoauth2) := by
  unfold Session.authBearer refusesBearer
  cases w.decodeBase64 (w.text.trim response) with
  | none => exact commanded_fail s rfl
  | some message =>
  dsimp only
  cases (if xoauth2 then w.parseXoauth2 message else w.parseOauthbearer message) with
  | none => exact commanded_fail s rfl
  | some parsed =>
  dsimp only
  split
  · split
    · exact commanded_succeed s _
    · exact commanded_tokenRefused s _
  · exact commanded_tokenRefused s _
  · exact commanded_reply s rfl _

theorem commanded_authRefused (s : Session) : Commanded false s s.authRefused := by
  unfold Session.authRefused
  split
  · exact commanded_quit s _
  · exact commanded_reply s rfl _

theorem commanded_loginUsername (line : String) :
    Commanded (decodeUtf8 w line).isNone s (s.loginUsername w line) := by
  unfold Session.loginUsername
  cases decodeUtf8 w line with
  | some username => exact commanded_reply s rfl _
  | none => exact commanded_fail s rfl

theorem commanded_authLine (step : AuthStep) (line : String) :
    Commanded (refusesLine w step line) s (s.authLine w step line) := by
  unfold Session.authLine refusesLine
  by_cases hfailed : step = .bearerFailed
  · rw [if_pos hfailed, decide_eq_false (not_not.2 hfailed)]
    exact commanded_authRefused s
  rw [if_neg hfailed, decide_eq_true hfailed]
  by_cases hcancel : line = "*"
  · rw [if_pos hcancel, beq_iff_eq.2 hcancel]
    exact commanded_fail s rfl
  rw [if_neg hcancel, beq_eq_false_iff_ne.2 hcancel]
  cases step with
  | plainResponse => exact commanded_authPlain _
  | loginUsername => exact commanded_loginUsername _
  | loginPassword username =>
    cases decodeUtf8 w line with
    | some password => exact commanded_checkCredentials _ _
    | none => exact commanded_fail s rfl
  | bearerResponse xoauth2 => exact commanded_authBearer _ _
  | bearerFailed => exact absurd rfl hfailed

theorem commanded_auth (mechanism : Mechanism) (initialResponse : String) :
    Commanded (refusesAuth w s mechanism initialResponse) s (s.auth w mechanism initialResponse) := by
  unfold Session.auth refusesAuth
  cases hsub : s.kind.isSubmission with
  | false => exact commanded_fail s rfl
  | true =>
  cases s.authAvailable w with
  | false => exact commanded_fail s rfl
  | true =>
  cases s.account.isSome with
  | true => exact commanded_fail s rfl
  | false =>
  cases s.envelope.isSome with
  | true => exact commanded_fail s rfl
  | false =>
  cases w.isBlocked with
  | true => exact commanded_quit s _
  | false =>
  simp only [Bool.not_true, Bool.not_false, Bool.false_or, Bool.true_and, Bool.false_eq_true, if_false]
  generalize (if w.text.trim initialResponse = "=" then "" else w.text.trim initialResponse) = initial
  unfold refusesInitial
  by_cases hnone : initial = ""
  · rw [decide_eq_false (not_not.2 hnone)]
    simp only [hnone, if_true, Bool.false_and]
    cases mechanism with
    | other => exact commanded_fail s rfl
    | _ => exact commanded_reply s rfl _
  · rw [decide_eq_true hnone]
    simp only [hnone, if_false, Bool.true_and]
    cases mechanism with
    | plain => exact commanded_authPlain _
    | login => exact commanded_loginUsername _
    | oauthbearer => exact commanded_authBearer _ _
    | xoauth2 => exact commanded_authBearer _ _
    | other => exact commanded_fail s rfl

theorem closes_ehloResponse : ∀ lines : List String, closes (ehloResponse lines) = false
  | [] => rfl
  | [line] => by simp [ehloResponse, closes, toString]
  | line :: line' :: lines => by simp [ehloResponse, closes, toString]

theorem counts_same (s : Session) : Counts false s s where
  errors := rfl
  failures := rfl
  heard hlast := by
    rw [Said.eq_of hlast]
    simp [said421]

theorem counts_reset (s : Session) : Counts false s s.resetTransaction where
  errors := rfl
  failures := rfl
  heard hlast := by
    have hlog : s.resetTransaction.log = s.log ++ [.forgotten] := rfl
    rw [hlog, saidOf_snoc]
    exact (counts_same s).heard hlast

theorem Counts.trans {s'' : Session} (h : Counts false s s') (h' : Counts false s' s'') :
    Counts false s s'' where
  errors := h'.errors.trans h.errors
  failures := h'.failures.trans h.failures
  heard hlast := by
    have hfirst := h.heard hlast
    have hsecond := h'.heard (by rw [hfirst]; rfl)
    rw [hsecond, said421, hfirst]
    simp only [Bool.false_and, Bool.or_false]
    rfl

theorem commanded_ehlo (host : String) (extended : Bool) :
    Commanded false s (s.ehlo w host extended, .continue) := by
  have hreset : Counts false s { s.resetTransaction with helo := some host } :=
    ⟨rfl, rfl, (counts_reset s).heard⟩
  unfold Session.ehlo
  split
  · exact (hreset.trans (counts_reply _ (closes_ehloResponse _))).commanded (nomatch ·)
  · exact (hreset.trans (counts_reply _ (by simp [closes, toString]))).commanded (nomatch ·)

/-- **What a command refuses, it counts**, and it counts nothing else. -/
theorem commanded_command (request : Request) : Commanded (refuses w s request) s (s.command w request) := by
  cases request with
  | ehlo host => exact commanded_ehlo host true
  | helo host => exact commanded_ehlo host false
  | startTls =>
    simp only [Session.command, refuses]
    cases s.isTls || !w.offersTls with
    | true => exact commanded_fail s rfl
    | false => exact commanded_reply s rfl _
  | auth mechanism initialResponse => exact commanded_auth _ _
  | mail sender =>
    have hcounts : Counts (refusesMail w s sender) s (s.mail w sender) := counts_mail sender
    exact hcounts.commanded fun _ => rfl
  | rcpt recipient =>
    have hcounts : Counts (refusesRcpt w s recipient) s (s.rcpt w recipient) := counts_rcpt recipient
    exact hcounts.commanded fun _ => rfl
  | data =>
    simp only [Session.command, refuses]
    cases s.recipients.isEmpty with
    | true => exact commanded_fail s rfl
    | false => exact commanded_reply s rfl _
  | bdat chunkSize isLast =>
    simp only [Session.command]
    split
    · exact (counts_same s).commanded fun h => by cases h
    · exact (counts_same s).commanded fun h => by cases h
  | rset =>
    refine ((counts_reset s).trans (counts_reply _ ?_)).commanded fun h => by cases h
    rfl
  | noop => exact commanded_reply s rfl _
  | quit => exact commanded_quit s _
  | vrfy => exact commanded_reply s rfl _
  | help => exact commanded_reply s rfl _
  | notImplemented => exact commanded_fail s rfl

/-- The answer for a message is nobody's error, and closes nothing. -/
theorem counts_endMessage (s : Session) : Counts false s (s.endMessage w) := by
  have hended : ∃ deed text, (s.endMessage w).errors = s.errors ∧
    (s.endMessage w).authFailures = s.authFailures ∧
      (s.endMessage w).log = s.log ++ [deed] ++ [.reply text] ∧
      ∀ said : Said, said.after deed = { said with answering := true } := by
    unfold Session.endMessage Session.finishMessage
    dsimp only
    split
    · exact ⟨_, _, rfl, rfl, rfl, fun _ => rfl⟩
    split
    · exact ⟨_, _, rfl, rfl, rfl, fun _ => rfl⟩
    split
    · exact ⟨_, _, rfl, rfl, rfl, fun _ => rfl⟩
    split
    · exact ⟨_, _, rfl, rfl, rfl, fun _ => rfl⟩
    · exact ⟨_, _, rfl, rfl, rfl, fun _ => rfl⟩
  obtain ⟨deed, text, herrors, hfailures, hlog, hdeed⟩ := hended
  refine ⟨herrors, hfailures, fun _ => ?_⟩
  rw [hlog, saidOf_snoc, saidOf_snoc, hdeed]
  simp [Said.after, Said.of, said421]

theorem counts_refuseMessage (s : Session) : Counts false s s.refuseMessage := by
  have hreset : Counts false s { s.resetTransaction with messagesEnded := s.messagesEnded + 1 } :=
    ⟨rfl, rfl, (counts_reset s).heard⟩
  refine hreset.trans (counts_reply _ ?_)
  rfl

/-- Where the session is still open: 421 was not said, and there is room for an error. -/
structure OnTheBooks (s : Session) : Prop where
  heard : saidOf s.log = .of false
  errors : s.errors < maxErrors

theorem OnTheBooks.counts (h : OnTheBooks s) (hc : Counts false s s') : OnTheBooks s' := by
  have hsaid : said421 s.log = false := by rw [said421, h.heard]; rfl
  refine ⟨?_, hc.errors ▸ h.errors⟩
  rw [hc.heard (by rw [h.heard]; rfl), hsaid]
  rfl

/-- **The books of a session**: no more than ten errors, and fewer while it is open. -/
structure Books (l : Loop W) : Prop where
  errors : l.session.errors ≤ maxErrors
  live : l.closed = false → OnTheBooks l.session

theorem OnTheBooks.books (h : OnTheBooks l.session) : Books l := ⟨Nat.le_of_lt h.errors, fun _ => h⟩

@[simp] theorem goOn_session (l : Loop W) (rest : List UInt8) : (l.goOn rest).session = l.session := rfl

/-- What follows a command counts nothing, and says nothing. -/
theorem counts_next (l : Loop W) (receiver : W.RequestReceiver) (s : Session) (rest : List UInt8)
    (next : Next) :
    Counts false s (l.next w receiver s rest next).session := by
  cases next with
  | bdat size last =>
    unfold Loop.next
    dsimp only
    split
    · exact counts_same s
    · exact ⟨rfl, rfl, (counts_same s).heard⟩
  | startTls =>
    unfold Loop.next Session.startTls
    dsimp only
    cases w.handshake with
    | true => exact ⟨rfl, rfl, (counts_reset s).heard⟩
    | false => exact counts_same s
  | data => exact ⟨rfl, rfl, (counts_same s).heard⟩
  | _ => exact counts_same s

/-- A turn that refuses a command: the error is counted, 421 is said if it is the tenth, and the
session stays open. -/
structure Refused (l l' : Loop W) : Prop where
  isOpen : l'.closed = false
  errors : l'.session.errors = l.session.errors + 1
  heard : saidOf l'.session.log = .of (decide (maxErrors ≤ l.session.errors + 1))

/-- What a command comes to, in an open session. -/
theorem Commanded.turned {p : Session × Next} {b : Bool} (h : Commanded b s p) (hs : OnTheBooks s) :
    (b = true → p.1.errors = s.errors + 1 ∧ saidOf p.1.log = .of (decide (maxErrors ≤ s.errors + 1))) ∧
    (b = false → p.1.errors ≤ maxErrors ∧ (p.2 ≠ .quit → OnTheBooks p.1)) := by
  have hlast : (saidOf s.log).answering = false := by rw [hs.heard]; rfl
  have hsaid : said421 s.log = false := by rw [said421, hs.heard]; rfl
  constructor
  · rintro rfl
    refine ⟨h.errors, ?_⟩
    rw [h.heard hlast (by rw [h.goesOn rfl]; exact nofun), hsaid, Bool.false_or, Bool.true_and]
  · rintro rfl
    have herrors : p.1.errors = s.errors := h.errors
    refine ⟨by rw [herrors]; exact Nat.le_of_lt hs.errors, fun hnext => ⟨?_, by rw [herrors]; exact hs.errors⟩⟩
    rw [h.heard hlast hnext, hsaid]
    rfl

theorem closes_text (e : ProtoError) : closes e.text = false := by
  cases e with
  | other what => simp [ProtoError.text, closes, toString]
  | _ => rfl

/-- **The loop heeds what `error` says**: the tenth error ends the session. -/
theorem error_books {receiver : W.RequestReceiver} {rest : List UInt8} (hs : OnTheBooks l.session)
    (e : ProtoError) :
    Books ({ l with session := (l.session.error e.text).1, state := .command receiver,
                    closed := (l.session.error e.text).2 }.goOn rest) := by
  have hcounts : Counts true l.session (l.session.error e.text).1 := counts_fail l.session (closes_text e)
  have hsaid : said421 l.session.log = false := by rw [said421, hs.heard]; rfl
  have herrors : (l.session.error e.text).1.errors = l.session.errors + 1 := hcounts.errors
  refine ⟨herrors ▸ hs.errors, fun hopen => ?_⟩
  have hroom : ¬ maxErrors ≤ l.session.errors + 1 := by
    intro hfull
    have hclosed : (l.session.error e.text).2 = true := by
      unfold Session.error
      rw [if_pos hfull]
    exact absurd (hclosed.symm.trans hopen) nofun
  refine ⟨?_, herrors ▸ Nat.not_le.1 hroom⟩
  rw [goOn_session, hcounts.heard (by rw [hs.heard]; rfl), hsaid, decide_eq_false hroom]
  rfl

/-- The client sends a message, or a chunk of one. -/
def State.sending : State W → Bool
  | .command _ | .auth _ _ => false
  | _ => true

/-- **What arrives for a message is nobody's error.** -/
theorem counts_sending {bytes : List UInt8} (hstate : l.state.sending) :
    Counts false l.session (l.turn w bytes).session := by
  unfold Loop.turn
  cases hs : l.state with
  | command receiver => exact absurd (hs ▸ hstate) nofun
  | auth step receiver => exact absurd (hs ▸ hstate) nofun
  | data receiver =>
    dsimp only
    generalize W.data receiver bytes l.session.message = ingest
    have hkept : Counts false l.session { l.session with message := ingest.buffer } :=
      ⟨rfl, rfl, (counts_same _).heard⟩
    split
    · exact (hkept.did fun _ => rfl).trans (counts_endMessage _)
    split
    · exact ⟨rfl, rfl, (counts_same _).heard⟩
    · exact hkept
  | dataDiscard receiver =>
    dsimp only
    split
    · exact counts_refuseMessage _
    · exact counts_same _
  | bdat receiver =>
    dsimp only
    generalize W.bdat receiver bytes l.session.message = ingest
    have hkept : Counts false l.session { l.session with message := ingest.buffer } :=
      ⟨rfl, rfl, (counts_same _).heard⟩
    split
    · split
      · exact (hkept.did fun _ => rfl).trans (counts_endMessage _)
      · exact (hkept.did fun _ => rfl).trans (counts_reply _ rfl)
    · exact hkept
  | bdatTooBig receiver last =>
    dsimp only
    split
    · split
      · exact counts_refuseMessage _
      · exact ((counts_same _).did fun _ => rfl).trans (counts_reply _ rfl)
    · exact counts_same _
  | bdatDiscard receiver =>
    dsimp only
    split
    · exact counts_reply _ rfl
    · exact counts_same _

/-- **A turn of an open session.** -/
theorem turn_books {bytes : List UInt8} (hs : OnTheBooks l.session) (hopen : l.closed = false) :
    (refusedBy w l bytes = true → Refused l (l.turn w bytes)) ∧
    (refusedBy w l bytes = false → Books (l.turn w bytes)) := by
  by_cases hsending : l.state.sending
  · have hnone : refusedBy w l bytes = false := by
      unfold refusedBy
      cases hstate : l.state with
      | command receiver => exact absurd (hstate ▸ hsending) nofun
      | auth step receiver => exact absurd (hstate ▸ hsending) nofun
      | _ => rfl
    exact ⟨fun hb => absurd (hnone.symm.trans hb) nofun, fun _ => (hs.counts (counts_sending hsending)).books⟩
  have hsame : ∀ {l' : Loop W}, l'.session = l.session → Books l' := fun he => (he ▸ hs : OnTheBooks _).books
  unfold Loop.turn refusedBy
  cases hstate : l.state with
  | command receiver =>
    dsimp only
    obtain ⟨receiver', rest, request | _ | e⟩ := W.request receiver bytes
    · dsimp only
      have hcommand := commanded_command (w := w) (s := l.session) request
      obtain ⟨htrue, hfalse⟩ := hcommand.turned hs
      generalize l.session.command w request = p at hcommand htrue hfalse
      obtain ⟨s, next⟩ := p
      constructor
      · intro hb
        have hnext : next = .continue := hcommand.goesOn hb
        obtain ⟨herrors, hheard⟩ := htrue hb
        subst hnext
        exact ⟨hopen, herrors, hheard⟩
      · intro hb
        obtain ⟨herrors, hlive⟩ := hfalse hb
        have hc := counts_next (w := w) l receiver' s rest next
        refine ⟨hc.errors ▸ herrors, fun hclosed => ?_⟩
        refine (hlive ?_).counts hc
        rintro rfl
        cases hclosed
    · exact ⟨(nomatch ·), fun _ => hsame rfl⟩
    · exact ⟨(nomatch ·), fun _ => error_books hs e⟩
  | auth step receiver =>
    dsimp only
    obtain ⟨receiver', rest, _ | _⟩ := W.line receiver bytes
    · exact ⟨(nomatch ·), fun _ => hsame rfl⟩
    dsimp only
    generalize w.text.trim (w.fromUtf8Lossy (W.lineBuffer receiver')) = line
    have hline := commanded_authLine (w := w) (s := l.session) step line
    obtain ⟨htrue, hfalse⟩ := hline.turned hs
    generalize l.session.authLine w step line = p at hline htrue hfalse
    obtain ⟨s, next⟩ := p
    constructor
    · intro hb
      have hnext : next = .continue := hline.goesOn hb
      obtain ⟨herrors, hheard⟩ := htrue hb
      subst hnext
      exact ⟨hopen, herrors, hheard⟩
    · intro hb
      obtain ⟨herrors, hlive⟩ := hfalse hb
      cases next with
      | quit => exact ⟨herrors, nofun⟩
      | _ => exact (hlive nofun).books
  | _ => simp [State.sending, hstate] at hsending

/-- **The step lemma.**  A step that heeds its errors keeps the books, and any other leaves a
session open that was told it is closed. -/
theorem Books.step (h : Books l) (hstep : step l e = some l') :
    (Heeded l e → Books l') ∧ (¬ Heeded l e → ¬ Ended l') := by
  unfold Smtp.step at hstep
  split at hstep
  · cases hstep
  rename_i hopen
  rw [Bool.not_eq_true] at hopen
  have hs := h.live hopen
  split at hstep
  · split at hstep
    · cases hstep
    · cases hstep
      exact ⟨fun _ => ⟨h.errors, fun _ => hs⟩, fun hnot => absurd (fun _ _ he => by cases he) hnot⟩
  · rename_i w bytes hbytes
    cases hstep
    obtain ⟨hrefused, hbooks⟩ := @turn_books _ w _ bytes hs hopen
    cases hb : refusedBy w l bytes with
    | false =>
      refine ⟨fun _ => hbooks hb, fun hnot => absurd ?_ hnot⟩
      rintro w' bytes' he hbytes' hb'
      cases he
      cases hbytes.symm.trans hbytes'
      exact absurd (hb.symm.trans hb') (by simp)
    | true =>
      obtain ⟨hstays, herrors, hheard⟩ := hrefused hb
      constructor
      · intro hheeded
        have hroom := hheeded w bytes rfl hbytes hb
        rw [decide_eq_false (Nat.not_le.2 hroom)] at hheard
        exact (OnTheBooks.mk hheard (herrors ▸ hroom)).books
      · intro hnot hended
        refine hnot fun w' bytes' _ _ _ => ?_
        by_contra hfull
        rw [decide_eq_true (Nat.not_lt.1 hfull)] at hheard
        have hsaid : said421 (l.turn w bytes).session.log = true := by rw [said421, hheard]; rfl
        exact absurd (hstays.symm.trans (hended.silent hsaid)) (by simp)
  · cases hstep
    exact ⟨fun _ => ⟨h.errors, fun hopen => by cases hopen⟩, fun hnot => absurd (fun _ _ he => by cases he) hnot⟩
  · cases hstep

theorem Books.ended (h : Books l) : Ended l where
  errors := h.errors
  silent hsaid := by
    cases hclosed : l.closed with
    | true => rfl
    | false =>
      rw [said421, (h.live hclosed).heard] at hsaid
      cases hsaid

/-! ## 4. Failed logins -/

/-- **The third failed login is the last**: the session is over, or will be with the next line of
the client. -/
structure Logins (l : Loop W) : Prop where
  atMost : l.session.authFailures ≤ maxAuthFailures
  last : l.closed ∨ (∃ receiver, l.state = .auth .bearerFailed receiver) ∨
    l.session.authFailures < maxAuthFailures

theorem authRefused_last (h : s.authFailures ≤ maxAuthFailures) :
    s.authRefused.1.authFailures ≤ maxAuthFailures ∧
      (s.authRefused.2 = .quit ∨ s.authRefused.1.authFailures < maxAuthFailures) := by
  unfold Session.authRefused
  split
  · exact ⟨h, .inl rfl⟩
  · rename_i hroom
    exact ⟨h, .inr (Nat.not_le.1 hroom)⟩

/-- Where no refused token waits for its answer, there is room for another failed login. -/
theorem Logins.room (h : Logins l) (hopen : l.closed = false)
    (hstate : ∀ receiver, l.state ≠ .auth .bearerFailed receiver) :
        l.session.authFailures < maxAuthFailures := by
  rcases h.last with hclosed | ⟨receiver, hfailed⟩ | hroom
  · exact absurd (hopen.symm.trans hclosed) nofun
  · exact absurd hfailed (hstate receiver)
  · exact hroom

theorem turn_logins {bytes : List UInt8} (h : Logins l) (hopen : l.closed = false) :
    Logins (l.turn w bytes) := by
  by_cases hsending : l.state.sending
  · have hroom := h.room hopen fun receiver hstate => by simp [State.sending, hstate] at hsending
    have hsame := (@counts_sending _ w _ bytes hsending).failures
    exact ⟨hsame ▸ Nat.le_of_lt hroom, .inr (.inr (hsame ▸ hroom))⟩
  unfold Loop.turn
  cases hstate : l.state with
  | command receiver =>
    have hroom := h.room hopen fun receiver' hstate' => nomatch hstate.symm.trans hstate'
    dsimp only
    obtain ⟨receiver', rest, request | _ | e⟩ := W.request receiver bytes
    · dsimp only
      obtain ⟨hmost, hlast⟩ := (commanded_command (w := w) (s := l.session) request).failures hroom
      generalize l.session.command w request = p at hmost hlast
      obtain ⟨s, next⟩ := p
      have hsame := (counts_next (w := w) l receiver' s rest next).failures
      refine ⟨hsame ▸ hmost, ?_⟩
      rcases hlast with rfl | rfl | hlast
      · exact .inl rfl
      · exact .inr (.inl ⟨_, rfl⟩)
      · exact .inr (.inr (hsame ▸ hlast))
    · exact ⟨h.atMost, .inr (.inr hroom)⟩
    · have hsame : (l.session.error e.text).1.authFailures = l.session.authFailures :=
        (counts_fail l.session (closes_text e)).failures
      exact ⟨hsame ▸ h.atMost, .inr (.inr (hsame ▸ hroom))⟩
  | auth step receiver =>
    dsimp only
    obtain ⟨receiver', rest, _ | _⟩ := W.line receiver bytes
    · refine ⟨h.atMost, ?_⟩
      rcases h.last with hclosed | ⟨receiver'', hfailed⟩ | hroom
      · exact .inl hclosed
      · cases hstate.symm.trans hfailed
        exact .inr (.inl ⟨_, rfl⟩)
      · exact .inr (.inr hroom)
    dsimp only
    generalize w.text.trim (w.fromUtf8Lossy (W.lineBuffer receiver')) = line
    have hline : (l.session.authLine w step line).1.authFailures ≤ maxAuthFailures ∧
        ((l.session.authLine w step line).2 = .quit ∨
          (l.session.authLine w step line).2 = .auth .bearerFailed ∨
          (l.session.authLine w step line).1.authFailures < maxAuthFailures) := by
      by_cases hfailed : step = .bearerFailed
      · have hrefused : l.session.authLine w step line = l.session.authRefused := by
          unfold Session.authLine
          rw [if_pos hfailed]
        obtain ⟨hmost, hlast⟩ := authRefused_last h.atMost
        rw [hrefused]
        exact ⟨hmost, hlast.imp_right .inr⟩
      · refine (commanded_authLine step line).failures (h.room hopen fun receiver'' hstate' => ?_)
        cases hstate.symm.trans hstate'
        exact hfailed rfl
    obtain ⟨hmost, hlast⟩ := hline
    generalize l.session.authLine w step line = p at hmost hlast
    obtain ⟨s, next⟩ := p
    rcases hlast with rfl | rfl | hlast
    · exact ⟨hmost, .inl rfl⟩
    · exact ⟨hmost, .inr (.inl ⟨_, rfl⟩)⟩
    · cases next with
      | quit => exact ⟨hmost, .inl rfl⟩
      | _ => exact ⟨hmost, .inr (.inr hlast)⟩
  | _ => simp [State.sending, hstate] at hsending

theorem Logins.step (h : Logins l) (hstep : step l e = some l') : Logins l' := by
  unfold Smtp.step at hstep
  split at hstep
  · cases hstep
  rename_i hopen
  rw [Bool.not_eq_true] at hopen
  split at hstep
  · split at hstep
    · cases hstep
    · cases hstep
      exact ⟨h.atMost, h.last⟩
  · cases hstep
    exact turn_logins h hopen
  · cases hstep
    exact ⟨h.atMost, .inl rfl⟩
  · cases hstep

/-! ## 5. The run -/

theorem books_start (W : Wire) (kind : ListenerKind) (hostname : String) (maxSize : Nat) :
    Books (start W kind hostname maxSize) where
  errors := Nat.zero_le _
  live _ := by
    refine ⟨?_, Nat.zero_lt_succ _⟩
    have hgreeting : closes s!"220 {hostname} ESMTP UwUMail ready\r\n" = false := by simp [closes, toString]
    exact (counts_reply { kind, isTls := decide (kind = .submissionTls) : Session } hgreeting).heard rfl

/-- In every state of a run too many errors have ended the session, exactly if every step heeds its
errors. -/
theorem ended_iff {es : List Event} (h : Books l) (hrun : Trace.run step l es = some l') :
    (∀ before reached, before <+: es → Trace.run step l before = some reached → Ended reached) ↔
      Trace.Along step Heeded l es := by
  induction es generalizing l with
  | nil =>
    refine ⟨fun _ => trivial, fun _ before reached hpre hbefore => ?_⟩
    cases List.prefix_nil.1 hpre
    cases hbefore
    exact h.ended
  | cons e es ih =>
    obtain ⟨next, hstep, hrest⟩ := Trace.run_cons_eq_some.1 hrun
    obtain ⟨hkeeps, hbreaks⟩ := h.step hstep
    constructor
    · intro hall
      have hheeded : Heeded l e := by
        by_contra hnot
        exact hbreaks hnot (hall [e] next (List.cons_prefix_cons.2 ⟨rfl, List.nil_prefix⟩)
          (Trace.run_cons_eq_some.2 ⟨next, hstep, rfl⟩))
      refine ⟨hheeded, fun next' hstep' => ?_⟩
      cases hstep.symm.trans hstep'
      exact (ih (hkeeps hheeded) hrest).1 fun before reached hpre hbefore =>
        hall (e :: before) reached (List.cons_prefix_cons.2 ⟨rfl, hpre⟩)
          (Trace.run_cons_eq_some.2 ⟨next, hstep, hbefore⟩)
    · rintro ⟨hheeded, halong⟩ before reached hpre hbefore
      cases before with
      | nil =>
        cases hbefore
        exact h.ended
      | cons e' before =>
        obtain ⟨rfl, hrestpre⟩ := List.cons_prefix_cons.1 hpre
        obtain ⟨next', hstep', hbefore⟩ := Trace.run_cons_eq_some.1 hbefore
        cases hstep.symm.trans hstep'
        exact (ih (hkeeps hheeded) hrest).2 (halong next hstep) before reached hrestpre hbefore

/-- **Too many errors end the session, where a command never makes the tenth.**  In every run there
are at most three failed logins; and in every state it comes to a session that was told 421 is over,
with at most ten errors, if and only if no command is refused when nine errors are on the books. -/
theorem errors_end_the_session {hostname : String} {maxSize : Nat} {es : List Event}
    (hrun : Trace.run step (start W kind hostname maxSize) es = some l) :
    l.session.authFailures ≤ maxAuthFailures ∧
    ((∀ before reached, before <+: es → Trace.run step (start W kind hostname maxSize) before = some reached →
        Ended reached) ↔
      Trace.Along step Heeded (start W kind hostname maxSize) es) := by
  have hlogins : Logins (start W kind hostname maxSize) := ⟨Nat.zero_le _, .inr (.inr (Nat.zero_lt_succ _))⟩
  refine ⟨?_, ended_iff (books_start W kind hostname maxSize) hrun⟩
  exact (Trace.run_invariant' (fun _ _ _ h hstep => h.step hstep) hlogins hrun).atMost

instance (l : Loop W) (e : Event) : Decidable (Heeded l e) :=
  match e, hb : l.bytes with
  | .turn w, some bytes =>
    decidable_of_iff (refusedBy w l bytes → l.session.errors + 1 < maxErrors) (by simp [Heeded, hb])
  | .turn _, none => isTrue fun _ _ _ hb' => by simp [hb] at hb'
  | .read _, _ => isTrue fun _ _ he => nomatch he
  | .hangUp, _ => isTrue fun _ _ he => nomatch he

/-- A client that gives ten lines nobody can read is told 421, and the session is over. -/
theorem ten_unknown_commands : ∃ l, Trace.run step (start plainWire .mx "mail.example.org" 1000)
      (pipelined ("".intercalate (List.replicate 10 "HALLO\r\n")) 10) = some l ∧
    said421 l.session.log ∧ Ended l ∧ l.session.authFailures ≤ maxAuthFailures := by
  have hrun : (Trace.run step (start plainWire .mx "mail.example.org" 1000)
      (pipelined ("".intercalate (List.replicate 10 "HALLO\r\n")) 10)).any fun l =>
          said421 l.session.log := by
    decide +kernel
  obtain ⟨l, hl, hsaid⟩ := (Option.any_eq_true _ _).1 hrun
  obtain ⟨hlogins, hended⟩ := errors_end_the_session hl
  exact ⟨l, hl, hsaid, hended.2 (by decide +kernel) _ l (List.prefix_refl _) hl, hlogins⟩

/-- A client that gives DATA before RCPT ten times is told 421, and then has its recipient accepted
as before. -/
theorem the_tenth_refusal_closes_nothing : ¬∀ (W : Wire) (kind : ListenerKind) (hostname : String)
    (maxSize : Nat)
    (es : List Event) (l : Loop W), Trace.run step (start W kind hostname maxSize) es = some l → Ended l := by
  intro hall
  have hrun : (Trace.run step (start plainWire .mx "mail.example.org" 1000)
      (pipelined ("".intercalate (List.replicate 10 "DATA\r\n") ++ greeted) 13)).any fun l =>
        said421 l.session.log && !l.closed && l.session.recipients.length == 1 := by
    decide +kernel
  obtain ⟨l, hl, hbad⟩ := (Option.any_eq_true _ _).1 hrun
  simp only [Bool.and_eq_true] at hbad
  have hclosed := (hall plainWire .mx _ _ _ l hl).silent hbad.1.1
  rw [hclosed] at hbad
  exact absurd hbad.1.2 nofun

end UwuMail.Smtp
