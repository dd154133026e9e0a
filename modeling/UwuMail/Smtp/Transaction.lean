/-
# One message, one transaction

`own log` reads off a session's log what its transaction is at that point: the sender and the
recipients accepted since it began, and the bytes acknowledged for it.  `Accounted` says that a
message handed on is that transaction and nothing else.

**It is, in every run in which no DATA follows a chunk** (`a_message_is_its_own_transaction`).  DATA
empties the buffer, and lifts the mark that a chunk did not fit; both are right only where no chunk
was acknowledged before it in the same transaction.  A client that sends a chunk and then DATA is
told `250 2.0.0 Chunk received`, and the chunk is gone (`a_chunk_before_data_is_lost`).

A command does one of three things (§2): it says something (`Quiet`), it opens a transaction, or it
takes a recipient.
-/
import UwuMail.Smtp.Session

namespace UwuMail.Smtp

open Store (StoreError)
open Directory (normalizeAddress)

variable {W : Wire} {w : World} {kind : ListenerKind} {s s' s'' : Session} {log : List Deed}

/-! ## 1. What a transaction is -/

/-- A RCPT that was accepted: by which server, for which address, and the new entries. -/
structure Acceptance where
  world : World
  address : String
  entries : List Recipient

structure Transaction where
  /-- The server that accepted MAIL, who was logged in, and the sender. -/
  sender : Option (World × Option Account × String) := none
  accepted : List Acceptance := []
  bytes : List UInt8 := []

/-- The transaction after one more deed. -/
def Transaction.after (W : Wire) (t : Transaction) : Deed → Transaction
  | .reply _ => t
  | .forgotten => {}
  | .handed .. => {}
  | .sender w account address => { sender := some (w, account, address) }
  | .recipient w address entries => { t with accepted := t.accepted ++ [⟨w, address, entries⟩] }
  | .chunk bytes => { t with bytes := t.bytes ++ bytes }
  | .data pieces => { t with bytes := t.bytes ++ (W.decoded pieces).2 }

/-- The transaction a log ends in. -/
def own (W : Wire) (log : List Deed) : Transaction := log.foldl (Transaction.after W) {}

@[simp] theorem own_snoc {d : Deed} : own W (log ++ [d]) = (own W log).after W d := by
  simp [own]

@[simp] theorem own_replies {texts : List String} : own W (log ++ texts.map .reply) = own W log := by
  have h : ∀ t : Transaction, (texts.map Deed.reply).foldl (Transaction.after W) t = t := by
    intro t
    induction texts with
    | nil => rfl
    | cons text texts ih => exact ih
  simp [own, h]

/-- A recipient the server takes mail for, as it stands: one constructor for each door. -/
inductive Takes (w : World) (sender : String) (r : Recipient) : Prop
  | bounce (original : String) (hsender : sender = "") (h : w.srsReverse r.address = some original)
  | report (kind : ReportKind) (h : w.reportRecipient r.address = .ok (some kind))
  | trap (trap : String) (hmem : trap ∈ w.traps) (h : eqIgnoreAsciiCase trap r.address)
  | forward (targets : List (String × Option Int))
      (h : w.forwardAddressTargets r.address = .ok (some targets))
  | group (g : Directory.GroupDelivery) (account : Option Int) (member : Int)
      (h : w.groupDelivery r.address = .ok (some g)) (haccepts : w.groupAccepts g sender account = .ok true)
      (hmem : member ∈ g.members) (htarget : w.deliveryTarget member = .ok r.localAccount)
      (hsome : r.localAccount.isSome)
  | person (id : Int) (h : w.resolveRecipient r.address = .ok (some id)) (hsome : r.localAccount.isSome)

/-- A transaction is exactly this sender and these recipients. -/
structure Opened (kind : ListenerKind) (t : Transaction) (account : Option Account)
    (rcpts : List Recipient) (e : Envelope) : Prop where
  sender : ∃ w, t.sender = some (w, account, e.address) ∧ (kind.isSubmission →
    ∃ a, account = some a ∧ w.accountOwnsAddress a.id e.address = .ok true)
  recipients : rcpts = t.accepted.flatMap (·.entries)
  named : ∀ a ∈ t.accepted, ∃ r ∈ rcpts, r.address = a.address
  made : ∀ a ∈ t.accepted, ∀ r ∈ a.entries,
    r.address = a.address ∧ (kind = .mx → Takes a.world e.address r)

/-- **A message handed on is the transaction it belongs to**, byte for byte. -/
def Accounted (kind : ListenerKind) (t : Transaction) (account : Option Account)
    (envelope : Option Envelope) (recipients : List Recipient) (message : List UInt8) : Prop :=
  message = t.bytes ∧ ∃ e, envelope = some e ∧ Opened kind t account recipients e

/-- Every message a log says was handed on. -/
def Good (W : Wire) (kind : ListenerKind) (log : List Deed) : Prop :=
  ∀ before account envelope recipients message,
    before ++ [.handed account envelope recipients message] <+: log →
      Accounted kind (own W before) account envelope recipients message

theorem Good.snoc {d : Deed} (h : Good W kind log)
    (hd : ∀ account envelope recipients message, d = .handed account envelope recipients message →
      Accounted kind (own W log) account envelope recipients message) : Good W kind (log ++ [d]) := by
  intro before account envelope recipients message hpre
  rcases List.prefix_concat_iff.1 hpre with heq | hpre
  · obtain ⟨rfl, hlast⟩ := List.append_inj' heq rfl
    exact hd _ _ _ _ (List.cons.inj hlast).1.symm
  · exact h _ _ _ _ _ hpre

theorem Good.reply (h : Good W kind log) (text : String) : Good W kind (log ++ [.reply text]) :=
  h.snoc fun _ _ _ _ hd => nomatch hd

theorem Good.replies {texts : List String} (h : Good W kind log) :
    Good W kind (log ++ texts.map .reply) := by
  induction texts generalizing log with
  | nil => simpa using h
  | cons text texts ih =>
    simpa using ih (h.reply text)

/-! ## 2. What the commands do -/

/-- Nothing happened but replies, and a login where no transaction is open. -/
structure Quiet (s s' : Session) : Prop where
  kind : s'.kind = s.kind
  account : s.envelope ≠ none → s'.account = s.account
  envelope : s'.envelope = s.envelope
  recipients : s'.recipients = s.recipients
  message : s'.message = s.message
  messageTooBig : s'.messageTooBig = s.messageTooBig
  log : ∃ texts : List String, s'.log = s.log ++ texts.map .reply

theorem quiet_reply (s : Session) (text : String) : Quiet s (s.reply text) :=
  ⟨rfl, fun _ => rfl, rfl, rfl, rfl, rfl, [text], rfl⟩

theorem quiet_error (s : Session) (text : String) : Quiet s (s.error text).1 := by
  unfold Session.error
  dsimp only
  split
  · exact ⟨rfl, fun _ => rfl, rfl, rfl, rfl, rfl, [_], rfl⟩
  · exact ⟨rfl, fun _ => rfl, rfl, rfl, rfl, rfl, [text], rfl⟩

theorem quiet_fail (s : Session) (text : String) : Quiet s (s.fail text) := quiet_error s text

section Logins

variable (hidle : s.envelope = none)
include hidle

theorem quiet_succeed (account : Account) : Quiet s (s.succeed account).1 :=
  ⟨rfl, fun h => absurd hidle h, rfl, rfl, rfl, rfl, [_], rfl⟩

theorem quiet_checkCredentials (login password : String) :
    Quiet s (s.checkCredentials w login password).1 := by
  unfold Session.checkCredentials
  split
  · split
    · exact quiet_succeed hidle _
    · dsimp only
      split
      · exact ⟨rfl, fun _ => rfl, rfl, rfl, rfl, rfl, [_], rfl⟩
      · exact ⟨rfl, fun _ => rfl, rfl, rfl, rfl, rfl, [_], rfl⟩
    · exact quiet_reply s _
  · exact quiet_reply s _

theorem quiet_authPlain (response : String) : Quiet s (s.authPlain w response).1 := by
  unfold Session.authPlain
  split
  · dsimp only
    split
    · exact quiet_fail s _
    · exact quiet_checkCredentials hidle _ _
  · exact quiet_fail s _

theorem quiet_authBearer (response : String) (xoauth2 : Bool) :
    Quiet s (s.authBearer w response xoauth2).1 := by
  have hrefused : Quiet s (s.tokenRefused w xoauth2).1 :=
    ⟨rfl, fun _ => rfl, rfl, rfl, rfl, rfl, [_], rfl⟩
  unfold Session.authBearer
  split
  · exact quiet_fail s _
  · split
    · exact quiet_fail s _
    · split
      · split
        · exact quiet_succeed hidle _
        · exact hrefused
      · exact hrefused
      · exact quiet_reply s _

omit hidle in
theorem quiet_authRefused (s : Session) : Quiet s s.authRefused.1 := by
  unfold Session.authRefused
  split
  · exact quiet_reply s _
  · exact quiet_reply s _

omit hidle in
theorem quiet_loginUsername (s : Session) (line : String) : Quiet s (s.loginUsername w line).1 := by
  unfold Session.loginUsername
  split
  · exact quiet_reply s _
  · exact quiet_fail s _

theorem quiet_authLine (step : AuthStep) (line : String) : Quiet s (s.authLine w step line).1 := by
  unfold Session.authLine
  split
  · exact quiet_authRefused s
  · split
    · exact quiet_fail s _
    · cases step with
      | plainResponse => exact quiet_authPlain hidle _
      | loginUsername => exact quiet_loginUsername s _
      | loginPassword username =>
        dsimp only
        split
        · exact quiet_checkCredentials hidle _ _
        · exact quiet_fail s _
      | bearerResponse xoauth2 => exact quiet_authBearer hidle _ _
      | bearerFailed => exact quiet_authRefused s

end Logins

/-- **AUTH is not allowed during a transaction**: where one is open, nobody logs in. -/
theorem quiet_auth (mechanism : Mechanism) (initialResponse : String) :
    Quiet s (s.auth w mechanism initialResponse).1 := by
  unfold Session.auth
  split
  · exact quiet_fail s _
  split
  · exact quiet_fail s _
  split
  · exact quiet_fail s _
  split
  · exact quiet_fail s _
  rename_i hopen
  have hidle : s.envelope = none := by simpa using hopen
  split
  · exact quiet_reply s _
  dsimp only
  generalize (if w.text.trim initialResponse = "=" then "" else w.text.trim initialResponse) = initial
  cases mechanism with
  | plain =>
    dsimp only
    split
    · exact quiet_reply s _
    · exact quiet_authPlain hidle _
  | login =>
    dsimp only
    split
    · exact quiet_reply s _
    · exact quiet_loginUsername s _
  | oauthbearer =>
    dsimp only
    split
    · exact quiet_reply s _
    · exact quiet_authBearer hidle _ _
  | xoauth2 =>
    dsimp only
    split
    · exact quiet_reply s _
    · exact quiet_authBearer hidle _ _
  | other => exact quiet_fail s _

/-- The dialogue of a login only begins where no transaction is open. -/
theorem auth_idle {mechanism : Mechanism} {initialResponse : String} {step : AuthStep}
    (h : (s.auth w mechanism initialResponse).2 = .auth step) : s.envelope = none := by
  by_contra hopen
  have hsome : s.envelope.isSome := by
    cases he : s.envelope with
    | none => exact absurd he hopen
    | some _ => rfl
  have hnext : (s.auth w mechanism initialResponse).2 = .continue := by
    simp only [Session.auth, hsome, if_true]
    split_ifs <;> rfl
  rw [hnext] at h
  cases h

/-- **MAIL opens a transaction, or says why not.**  On a submission port whoever is logged in may
use the sender. -/
theorem mail_cases (w : World) (sender : MailFrom) (s : Session) :
    Quiet s (s.mail w sender) ∨ s.envelope = none ∧ ∃ e : Envelope,
      s.mail w sender =
        ({ s with envelope := some e }.reply "250 2.1.0 Sender OK\r\n").did
          (.sender w s.account e.address) ∧
      (s.kind.isSubmission →
        ∃ a, s.account = some a ∧ w.accountOwnsAddress a.id e.address = .ok true) := by
  unfold Session.mail
  split
  · exact .inl (quiet_fail s _)
  split
  · exact .inl (quiet_fail s _)
  split
  · exact .inl (quiet_fail s _)
  split
  · exact .inl (quiet_fail s _)
  rename_i _ hopen hlogin _
  dsimp only
  split
  · rename_i hallowed
    refine .inr ⟨by simpa using hopen, _, rfl, fun hsub => ?_⟩
    cases hacc : s.account with
    | none => simp [hsub, hacc] at hlogin
    | some a =>
      rw [hacc] at hallowed
      simp only [Option.all_some, Bool.and_eq_true] at hallowed
      refine ⟨a, rfl, ?_⟩
      cases howns : w.accountOwnsAddress a.id (w.text.trim sender.address) with
      | error e => simp [howns, orElse] at hallowed
      | ok b =>
        simp only [howns, orElse] at hallowed
        rw [hallowed.2]
  · exact .inl (quiet_fail s _)

/-- What RCPT takes: entries with the address it names, each one the server takes mail for. -/
structure Taken (w : World) (s : Session) (address : String) (entries : List Recipient) : Prop where
  some : entries ≠ [] ∨ s.recipients.any (·.address == address)
  address : ∀ r ∈ entries, r.address = address
  takes : ∀ e ∈ s.envelope, s.kind = .mx → ∀ r ∈ entries, Takes w e.address r

/-- RCPT says something, or takes an address. -/
def Rcpted (w : World) (s s' : Session) : Prop :=
  Quiet s s' ∨ ∃ address entries, Taken w s address entries ∧ s' = s.take w address entries

theorem rcpted_fail (s : Session) (text : String) : Rcpted w s (s.fail text) := Or.inl (quiet_fail s text)

theorem rcpted_reply (s : Session) (text : String) : Rcpted w s (s.reply text) :=
  Or.inl (quiet_reply s text)

theorem rcpted_one {address : String} {r : Recipient} (ha : r.address = address)
    (ht : ∀ e ∈ s.envelope, s.kind = .mx → Takes w e.address r) :
    Rcpted w s (s.take w address [r]) := by
  refine .inr ⟨address, [r], ⟨.inl (List.cons_ne_nil _ _), ?_, ?_⟩, rfl⟩
  · intro r' hr'
    rw [List.mem_singleton.1 hr']
    exact ha
  · intro e he hmx r' hr'
    rw [List.mem_singleton.1 hr']
    exact ht e he hmx

/-- Every entry of a group is where mail for one of its members goes. -/
theorem mem_memberEntries {members entries : List Int} {target : Int}
    (h : target ∈ memberEntries w entries members) :
    target ∈ entries ∨ ∃ member ∈ members, w.deliveryTarget member = .ok (some target) := by
  induction members generalizing entries with
  | nil => exact .inl h
  | cons member members ih =>
    unfold memberEntries at h
    split at h
    · rename_i target' htarget
      rcases ih h with h | ⟨m, hm, ht⟩
      · split at h
        · exact .inl h
        · rcases List.mem_append.1 h with h | h
          · exact .inl h
          · rw [List.mem_singleton.1 h]
            exact .inr ⟨member, List.mem_cons_self, htarget⟩
      · exact .inr ⟨m, List.mem_cons_of_mem _ hm, ht⟩
    · rcases ih h with h | ⟨m, hm, ht⟩
      · exact .inl h
      · exact .inr ⟨m, List.mem_cons_of_mem _ hm, ht⟩

theorem groupRcpt_cases {address : String} {g : Directory.GroupDelivery}
    (hg : w.groupDelivery address = .ok (some g)) (recipient : RcptTo) (s : Session) :
    Rcpted w s (s.groupRcpt w address g recipient) := by
  unfold Session.groupRcpt
  dsimp only
  split
  · exact rcpted_reply s _
  · split
    · exact rcpted_fail s _
    · exact rcpted_fail s _
  · rename_i haccepts
    split
    · rename_i hknown
      exact .inr ⟨address, [], ⟨Or.inr hknown, by simp, by simp⟩, rfl⟩
    cases hsub : s.kind.isSubmission with
    | true =>
      refine .inr ⟨address, _, ⟨.inl (List.cons_ne_nil _ _), ?_, ?_⟩, rfl⟩
      · intro r hr
        rw [List.mem_singleton.1 hr]
      · intro e _ hmx
        rw [hmx] at hsub
        cases hsub
    | false =>
      simp only [Bool.not_false, Bool.true_and, Bool.false_eq_true, if_false]
      split
      · exact rcpted_fail s _
      rename_i hsome
      refine .inr ⟨address, _, ⟨Or.inl (by simpa using hsome), ?_, ?_⟩, rfl⟩
      · intro r hr
        obtain ⟨a, _, rfl⟩ := List.mem_map.1 hr
        rfl
      · intro e he _ r hr
        obtain ⟨a, ha, rfl⟩ := List.mem_map.1 hr
        obtain ⟨target, hmem, rfl⟩ := List.mem_map.1 ha
        obtain ⟨member, hmember, htarget⟩ := (mem_memberEntries hmem).resolve_left List.not_mem_nil
        have he : s.envelope = some e := he
        rw [he] at haccepts
        exact .group g _ member hg haccepts hmember htarget rfl

theorem personRcpt_cases (w : World) (address domain : String) (recipient : RcptTo) (s : Session) :
    Rcpted w s (s.personRcpt w address domain recipient) := by
  unfold Session.personRcpt
  split
  · exact rcpted_reply s _
  · split
    · exact rcpted_fail s _
    split
    · exact rcpted_fail s _
    · rename_i hsub
      refine rcpted_one rfl fun _ _ hmx => ?_
      rw [hmx] at hsub
      exact absurd rfl hsub
  · rename_i accountId hfound
    split
    · split
      · split
        · exact rcpted_fail s _
        · exact rcpted_one rfl fun _ _ _ => .person accountId hfound rfl
      split
      · exact rcpted_reply s _
      · exact rcpted_one rfl fun _ _ _ => .person accountId hfound rfl
    · exact rcpted_one rfl fun _ _ _ => .person accountId hfound rfl

/-- **Every address RCPT takes on port 25 is one the server takes mail for.** -/
theorem rcpt_cases (w : World) (recipient : RcptTo) (s : Session) : Rcpted w s (s.rcpt w recipient) := by
  unfold Session.rcpt
  split
  · exact rcpted_fail s _
  rename_i envelope henv
  split
  · exact rcpted_reply s _
  split
  · exact rcpted_fail s _
  rename_i localPart domain _
  dsimp only
  split
  · exact rcpted_fail s _
  split
  · split
    · rename_i original horiginal
      split
      · rename_i hempty
        refine rcpted_one rfl fun e he _ => .bounce original ?_ horiginal
        rw [henv] at he
        exact Option.some.inj he ▸ hempty
      · exact rcpted_fail s _
    · exact rcpted_fail s _
  split
  · rename_i kind hreport
    refine rcpted_one rfl fun _ _ hmx => .report kind ?_
    simp only [hmx, ListenerKind.isSubmission, Bool.false_eq_true, if_false] at hreport
    cases hr : w.reportRecipient (localPart ++ "@" ++ domain) with
    | error e => simp [hr, orElse] at hreport
    | ok found =>
      simp only [hr, orElse] at hreport
      rw [hreport]
  split
  · rename_i htrap
    refine rcpted_one rfl fun _ _ _ => ?_
    simp only [Bool.and_eq_true, List.any_eq_true] at htrap
    obtain ⟨trap, hmem, heq⟩ := htrap.2
    exact .trap trap hmem heq
  split
  · rename_i targets hforward
    refine rcpted_one rfl fun _ _ _ => .forward targets ?_
    cases hf : w.forwardAddressTargets (localPart ++ "@" ++ domain) with
    | error e => simp [hf, orElse] at hforward
    | ok found =>
      simp only [hf, orElse] at hforward
      rw [hforward]
  split
  · exact rcpted_reply s _
  · rename_i hgroup
    exact groupRcpt_cases hgroup recipient s
  · exact personRcpt_cases w _ _ recipient s

/-! ## 3. What the loop keeps -/

/-- The session and its log agree on the transaction, but for its bytes. -/
structure Kept (W : Wire) (kind : ListenerKind) (s : Session) : Prop where
  port : s.kind = kind
  good : Good W kind s.log
  opened : ∀ e ∈ s.envelope, Opened kind (own W s.log) s.account s.recipients e
  idle : s.envelope = none →
    s.recipients = [] ∧ s.message = [] ∧ s.messageTooBig = false ∧ own W s.log = {}

/-- Between two commands: unless a chunk did not fit, the buffer holds what was acknowledged. -/
structure Ready (W : Wire) (kind : ListenerKind) (s : Session) : Prop extends Kept W kind s where
  waiting : s.messageTooBig = false → s.message = (own W s.log).bytes

theorem Kept.quiet (h : Kept W kind s) (hq : Quiet s s') : Kept W kind s' := by
  obtain ⟨texts, hlog⟩ := hq.log
  refine ⟨hq.kind.trans h.port, ?_, fun e he => ?_, fun hnone => ?_⟩
  · rw [hlog]
    exact h.good.replies
  · rw [hq.envelope] at he
    have hopen : s.envelope ≠ none := by
      intro hnone
      rw [hnone] at he
      cases he
    rw [hlog, own_replies, hq.account hopen, hq.recipients]
    exact h.opened e he
  · rw [hq.envelope] at hnone
    rw [hlog, own_replies, hq.recipients, hq.message, hq.messageTooBig]
    exact h.idle hnone

theorem Ready.quiet (h : Ready W kind s) (hq : Quiet s s') : Ready W kind s' where
  toKept := h.toKept.quiet hq
  waiting hfits := by
    obtain ⟨texts, hlog⟩ := hq.log
    rw [hq.messageTooBig] at hfits
    rw [hlog, own_replies, hq.message]
    exact h.waiting hfits

/-- A transaction without a sender has nothing. -/
theorem Ready.of_idle (hkind : s.kind = kind) (hgood : Good W kind s.log) (he : s.envelope = none)
    (hr : s.recipients = []) (hm : s.message = []) (hb : s.messageTooBig = false)
    (hown : own W s.log = {}) : Ready W kind s where
  port := hkind
  good := hgood
  opened e he' := by
    rw [he] at he'
    cases he'
  idle _ := ⟨hr, hm, hb, hown⟩
  waiting _ := by rw [hm, hown]

theorem Kept.reset (h : Kept W kind s) : Ready W kind s.resetTransaction :=
  .of_idle h.port (h.good.snoc fun _ _ _ _ hd => nomatch hd) rfl rfl rfl rfl own_snoc

theorem Ready.mail (h : Ready W kind s) (w : World) (sender : MailFrom) :
    Ready W kind (s.mail w sender) := by
  rcases mail_cases w sender s with hq | ⟨hnone, e, heq, hsub⟩
  · exact h.quiet hq
  obtain ⟨hr, hm, hb, _⟩ := h.idle hnone
  have hlog : (s.mail w sender).log =
      s.log ++ [.reply "250 2.1.0 Sender OK\r\n"] ++ [.sender w s.account e.address] := by
    rw [heq]
    rfl
  have hown : own W (s.mail w sender).log = { sender := some (w, s.account, e.address) } := by
    rw [hlog, own_snoc]
    rfl
  refine ⟨⟨?_, ?_, fun e' he' => ?_, fun hnone' => ?_⟩, fun _ => ?_⟩
  · rw [heq]
    exact h.port
  · rw [hlog]
    exact (h.good.reply _).snoc fun _ _ _ _ hd => nomatch hd
  · have he : e' = e := by
      rw [heq] at he'
      exact (Option.some.inj he').symm
    subst he
    have hrcpts : (s.mail w sender).recipients = [] := by
      rw [heq]
      exact hr
    have hacc : (s.mail w sender).account = s.account := by
      rw [heq]
      rfl
    rw [hown, hrcpts, hacc]
    refine ⟨⟨w, rfl, ?_⟩, rfl, by simp, by simp⟩
    rw [← h.port]
    exact hsub
  · rw [heq] at hnone'
    cases hnone'
  · rw [hown, heq]
    exact hm

/-- What a recipient that is taken adds. -/
theorem Ready.take {address : String} {entries : List Recipient} (h : Ready W kind s)
    (hopen : s.envelope ≠ none) (ht : Taken w s address entries) :
    Ready W kind (s.take w address entries) := by
  obtain ⟨new, hnew, hlog, hrcpts⟩ : ∃ new, new = (if s.recipients.any (·.address == address) then []
      else entries) ∧ (s.take w address entries).log = s.log ++ [.reply "250 2.1.5 Recipient OK\r\n"] ++
        [.recipient w address new] ∧ (s.take w address entries).recipients = s.recipients ++ new :=
    ⟨_, rfl, rfl, rfl⟩
  have hsub : new ⊆ entries := by
    rw [hnew]
    split <;> simp
  have hown : own W (s.take w address entries).log =
      { own W s.log with accepted := (own W s.log).accepted ++ [⟨w, address, new⟩] } := by
    rw [hlog, own_snoc, own_snoc]
    rfl
  have hnamed : ∃ r ∈ s.recipients ++ new, r.address = address := by
    by_cases hknown : s.recipients.any (·.address == address)
    · obtain ⟨r, hr, ha⟩ := List.any_eq_true.1 hknown
      exact ⟨r, List.mem_append_left _ hr, by simpa using ha⟩
    · rw [if_neg hknown] at hnew
      obtain ⟨r, hr⟩ := List.exists_mem_of_ne_nil _ (ht.some.resolve_right hknown)
      exact ⟨r, List.mem_append_right _ (hnew ▸ hr), ht.address r hr⟩
  refine ⟨⟨h.port, ?_, fun e he => ?_, fun hnone => absurd hnone hopen⟩, fun hfits => ?_⟩
  · rw [hlog]
    exact (h.good.reply _).snoc fun _ _ _ _ hd => nomatch hd
  · have hold := h.opened e he
    rw [hown, hrcpts]
    refine ⟨hold.sender, ?_, fun a ha => ?_, fun a ha r hr => ?_⟩
    · rw [List.flatMap_append, ← hold.recipients]
      simp
    · rcases List.mem_append.1 ha with ha | ha
      · obtain ⟨r, hr, hra⟩ := hold.named a ha
        exact ⟨r, List.mem_append_left _ hr, hra⟩
      · rw [List.mem_singleton.1 ha]
        exact hnamed
    · rcases List.mem_append.1 ha with ha | ha
      · exact hold.made a ha r hr
      · rw [List.mem_singleton.1 ha] at hr ⊢
        exact ⟨ht.address r (hsub hr), fun hmx => ht.takes e he (h.port.trans hmx) r (hsub hr)⟩
  · rw [hown]
    exact h.waiting hfits

theorem Ready.rcpt (h : Ready W kind s) (w : World) (recipient : RcptTo) :
    Ready W kind (s.rcpt w recipient) := by
  cases he : s.envelope with
  | none =>
    have heq : s.rcpt w recipient = s.fail "503 5.5.1 Send MAIL first\r\n" := by
      simp only [Session.rcpt, he]
    rw [heq]
    exact h.quiet (quiet_fail s _)
  | some e =>
    rcases rcpt_cases w recipient s with hq | ⟨address, entries, ht, heq⟩
    · exact h.quiet hq
    · rw [heq]
      exact h.take (by simp [he]) ht

theorem Ready.ehlo (h : Ready W kind s) (w : World) (host : String) (extended : Bool) :
    Ready W kind (s.ehlo w host extended) := by
  have hreset : Ready W kind { s.resetTransaction with helo := some host } :=
    ⟨h.reset.toKept |> fun k => ⟨k.port, k.good, k.opened, k.idle⟩, h.reset.waiting⟩
  unfold Session.ehlo
  split
  · exact hreset.quiet (quiet_reply _ _)
  · exact hreset.quiet (quiet_reply _ _)

/-- **Every command leaves the session ready**, whether it is accepted or refused. -/
theorem Ready.command (h : Ready W kind s) (w : World) (request : Request) :
    Ready W kind (s.command w request).1 := by
  cases request with
  | ehlo host => exact h.ehlo w host true
  | helo host => exact h.ehlo w host false
  | startTls =>
    simp only [Session.command]
    split
    · exact h.quiet (quiet_fail s _)
    · exact h.quiet (quiet_reply s _)
  | auth mechanism initialResponse => exact h.quiet (quiet_auth _ _)
  | mail sender => exact h.mail w sender
  | rcpt recipient => exact h.rcpt w recipient
  | data =>
    simp only [Session.command]
    split
    · exact h.quiet (quiet_fail s _)
    · exact h.quiet (quiet_reply s _)
  | bdat chunkSize isLast =>
    simp only [Session.command]
    split
    · exact h
    · exact h
  | rset => exact h.reset.quiet (quiet_reply _ _)
  | noop => exact h.quiet (quiet_reply s _)
  | quit => exact h.quiet (quiet_reply s _)
  | vrfy => exact h.quiet (quiet_reply s _)
  | help => exact h.quiet (quiet_reply s _)
  | notImplemented => exact h.quiet (quiet_fail s _)

/-- What a login can lead to: it never begins a message. -/
def Next.ofLogin : Next → Prop
  | .continue | .auth _ | .quit => True
  | _ => False

theorem ofLogin_checkCredentials (login password : String) :
    (s.checkCredentials w login password).2.ofLogin := by
  unfold Session.checkCredentials
  split
  · split
    · trivial
    · dsimp only
      split <;> trivial
    · trivial
  · trivial

theorem ofLogin_authPlain (response : String) : (s.authPlain w response).2.ofLogin := by
  unfold Session.authPlain
  split
  · dsimp only
    split
    · trivial
    · exact ofLogin_checkCredentials _ _
  · trivial

theorem ofLogin_authBearer (response : String) (xoauth2 : Bool) :
    (s.authBearer w response xoauth2).2.ofLogin := by
  unfold Session.authBearer
  split
  · trivial
  split
  · trivial
  split
  · split <;> trivial
  · trivial
  · trivial

theorem ofLogin_loginUsername (line : String) : (s.loginUsername w line).2.ofLogin := by
  unfold Session.loginUsername
  split <;> trivial

theorem ofLogin_auth (mechanism : Mechanism) (initialResponse : String) :
    (s.auth w mechanism initialResponse).2.ofLogin := by
  unfold Session.auth
  dsimp only
  generalize (if w.text.trim initialResponse = "=" then "" else w.text.trim initialResponse) = initial
  iterate 5
    split
    · trivial
  cases mechanism with
  | plain =>
    dsimp only
    split
    · trivial
    · exact ofLogin_authPlain _
  | login =>
    dsimp only
    split
    · trivial
    · exact ofLogin_loginUsername _
  | oauthbearer =>
    dsimp only
    split
    · trivial
    · exact ofLogin_authBearer _ _
  | xoauth2 =>
    dsimp only
    split
    · trivial
    · exact ofLogin_authBearer _ _
  | other => trivial

/-- What comes after a command, and where: `Loop.next` is told to receive a message only where there
are recipients, and to begin a login only where no transaction is open. -/
def Next.Fits (s s' : Session) (request : Request) : Next → Prop
  | .continue | .quit | .bdatDiscard _ | .startTls => True
  | .data => request = .data ∧ s.recipients ≠ []
  | .bdat _ _ => s'.recipients ≠ []
  | .auth _ => s'.envelope = none

theorem next_fits (w : World) (s : Session) (request : Request) :
    (s.command w request).2.Fits s (s.command w request).1 request := by
  cases request with
  | data =>
    simp only [Session.command]
    split
    · trivial
    · rename_i hsome
      exact ⟨rfl, by simpa using hsome⟩
  | bdat chunkSize isLast =>
    simp only [Session.command]
    split
    · trivial
    · rename_i hsome
      simpa [Next.Fits] using hsome
  | startTls =>
    simp only [Session.command]
    split <;> trivial
  | auth mechanism initialResponse =>
    have hlogin : (s.auth w mechanism initialResponse).2.ofLogin := ofLogin_auth _ _
    have hquiet : Quiet s (s.auth w mechanism initialResponse).1 := quiet_auth _ _
    change (s.auth w mechanism initialResponse).2.Fits s (s.auth w mechanism initialResponse).1 _
    cases hnext : (s.auth w mechanism initialResponse).2 with
    | auth step => exact hquiet.envelope.trans (auth_idle hnext)
    | data =>
      rw [hnext] at hlogin
      exact hlogin.elim
    | bdat size last =>
      rw [hnext] at hlogin
      exact hlogin.elim
    | _ => trivial
  | _ => trivial

theorem command_data (h : s.recipients ≠ []) :
    (s.command w .data).1 = s.reply "354 Start mail input; end with <CRLF>.<CRLF>\r\n" := by
  cases hr : s.recipients with
  | nil => exact absurd hr h
  | cons r rs => simp [Session.command, hr]

/-- **The end of a message**: the buffer is the transaction, it is handed on, and nothing is
left. -/
theorem Kept.endMessage (h : Kept W kind s) (hfits : s.messageTooBig = false)
    (hmessage : s.message = (own W s.log).bytes) (hopen : s.envelope ≠ none) (w : World) :
    Ready W kind (s.endMessage w) := by
  obtain ⟨e, he⟩ := Option.ne_none_iff_exists'.1 hopen
  let handed : Session :=
    { s with message := [], messagesEnded := s.messagesEnded + 1, envelope := none, recipients := [] }.did
      (.handed s.account s.envelope s.recipients s.message)
  have hready : Ready W kind handed := by
    refine .of_idle h.port ?_ rfl rfl rfl hfits own_snoc
    refine h.good.snoc fun account envelope recipients message hd => ?_
    obtain ⟨rfl, rfl, rfl, rfl⟩ := Deed.handed.inj hd
    exact ⟨hmessage, e, he, h.opened e he⟩
  refine hready.quiet ?_
  unfold Session.endMessage Session.finishMessage
  dsimp only
  split
  · exact quiet_reply _ _
  split
  · exact quiet_reply _ _
  split
  · exact quiet_reply _ _
  split
  · exact quiet_reply _ _
  · exact quiet_reply _ _

theorem Kept.refuseMessage (h : Kept W kind s) : Ready W kind s.refuseMessage := by
  have hreset : Ready W kind { s.resetTransaction with messagesEnded := s.messagesEnded + 1 } :=
    ⟨⟨h.reset.port, h.reset.good, h.reset.opened, h.reset.idle⟩, h.reset.waiting⟩
  exact hreset.quiet (quiet_reply _ _)

/-! ## 4. The loop -/

variable {l l' : Loop W} {e : Event}

/-- What the receiver at work has to do with the transaction. -/
def Carried (l : Loop W) : Prop :=
  match l.state with
  | .command _ | .bdatDiscard _ =>
    l.session.messageTooBig = false → l.session.message = (own W l.session.log).bytes
  | .data receiver =>
    l.session.envelope ≠ none ∧ l.session.messageTooBig = false ∧
      (own W l.session.log).bytes = [] ∧ W.decoded l.arrived = (receiver, l.session.message)
  | .bdat _ =>
    l.session.envelope ≠ none ∧ l.session.messageTooBig = false ∧
      l.session.message = (own W l.session.log).bytes ++ l.arrived.flatten
  | .dataDiscard _ | .bdatTooBig _ _ => l.session.envelope ≠ none ∧ l.session.messageTooBig = true
  | .auth _ _ => l.session.envelope = none

/-- The invariant of the loop. -/
structure Inv (kind : ListenerKind) (l : Loop W) : Prop where
  kept : Kept W kind l.session
  carried : Carried l

theorem Inv.goOn (h : Inv kind l) (rest : List UInt8) : Inv kind (l.goOn rest) := ⟨h.kept, h.carried⟩

theorem Inv.close (h : Inv kind l) : Inv kind { l with closed := true } := ⟨h.kept, h.carried⟩

theorem Inv.bytes (h : Inv kind l) (bytes : Option (List UInt8)) : Inv kind { l with bytes } :=
  ⟨h.kept, h.carried⟩

theorem Ready.inv_command (h : Ready W kind s) (l : Loop W) (receiver : W.RequestReceiver) :
    Inv kind { l with session := s, state := .command receiver } := ⟨h.toKept, h.waiting⟩

theorem Ready.toCommand (h : Ready W kind s) (l : Loop W) (rest : List UInt8) :
    Inv kind (l.toCommand s rest) :=
  (h.inv_command { l with arrived := [] } W.newRequest).goOn rest

/-- The session of a transaction that is open may put what it likes into the buffer. -/
theorem Kept.buffer (h : Kept W kind s) (hopen : s.envelope ≠ none) (message : List UInt8) (tooBig : Bool) :
    Kept W kind { s with message, messageTooBig := tooBig } :=
  ⟨h.port, h.good, h.opened, fun hnone => absurd hnone hopen⟩

/-- Recipients are only there in a transaction. -/
theorem Kept.open (h : Kept W kind s) (hr : s.recipients ≠ []) : s.envelope ≠ none :=
  fun hnone => hr (h.idle hnone).1

/-- **After a command.**  DATA starts from an empty buffer, which is right where the buffer is empty
anyway. -/
theorem Ready.next {next : Next} {old : W.RequestReceiver} (h : Ready W kind s) (l : Loop W) (w : World)
    (receiver : W.RequestReceiver) (rest : List UInt8) (hstate : l.state = .command old)
    (hdata : next = .data → s.recipients ≠ [] ∧ s.message = [] ∧ s.messageTooBig = false)
    (hbdat : ∀ size last, next = .bdat size last → s.recipients ≠ [])
    (hauth : ∀ step, next = .auth step → s.envelope = none) :
    Inv kind (l.next w receiver s rest next) := by
  have hclosed : Inv kind { l with session := s, closed := true } := by
    have hcommand := (h.inv_command l old).close
    rwa [← hstate] at hcommand
  cases next with
  | «continue» => exact (h.inv_command l receiver).goOn rest
  | data =>
    obtain ⟨hr, hm, hb⟩ := hdata rfl
    have hopen := h.open hr
    have hbytes : (own W s.log).bytes = [] := (h.waiting hb).symm.trans hm
    have hinv : Inv kind { l with session := { s with message := [], messageTooBig := false },
                                  state := .data W.newData, arrived := [] } :=
      ⟨h.buffer hopen [] false, hopen, rfl, hbytes, rfl⟩
    exact hinv.goOn rest
  | bdat size last =>
    have hopen := h.open (hbdat size last rfl)
    unfold Loop.next
    dsimp only
    split
    · rename_i hfits
      have hb : s.messageTooBig = false := by simpa using (Bool.and_eq_true_iff.1 hfits).1
      have hinv : Inv kind { l with session := s, state := .bdat (W.newBdat size last), arrived := [] } :=
        ⟨h.toKept, hopen, hb, by simpa using h.waiting hb⟩
      exact hinv.goOn rest
    · have hinv : Inv kind { l with session := { s with message := [], messageTooBig := true },
                                    state := .bdatTooBig (W.newDummyBdat size) last, arrived := [] } :=
        ⟨h.buffer hopen [] true, hopen, rfl⟩
      exact hinv.goOn rest
  | bdatDiscard size =>
    have hinv : Inv kind
        { l with session := s, state := .bdatDiscard (W.newDummyBdat size), arrived := [] } :=
      ⟨h.toKept, h.waiting⟩
    exact hinv.goOn rest
  | auth step =>
    have hinv : Inv kind { l with session := s, state := .auth step W.newLine } :=
      ⟨h.toKept, hauth step rfl⟩
    exact hinv.goOn rest
  | startTls =>
    unfold Loop.next Session.startTls
    dsimp only
    cases w.handshake with
    | true =>
      have hreset : Ready W kind { s with isTls := true, helo := none }.resetTransaction :=
        Kept.reset ⟨h.port, h.good, h.opened, h.idle⟩
      exact (hreset.inv_command l W.newRequest).bytes none
    | false => exact hclosed
  | quit => exact hclosed

theorem taken_append {read rest : List UInt8} : taken (read ++ rest) rest = read := by
  simp [taken]

/-- The pieces a receiver of data has read come to what it has written. -/
theorem decoded_snoc {receiver : W.DataReceiver} {pieces : List (List UInt8)} {message : List UInt8}
    (h : W.decoded pieces = (receiver, message)) (bytes : List UInt8) :
    W.decoded (pieces ++ [taken bytes (W.data receiver bytes message).rest]) =
      ((W.data receiver bytes message).receiver, (W.data receiver bytes message).buffer) := by
  obtain ⟨read, hread, hsame⟩ := W.data_reads receiver bytes message
  have htaken : taken bytes (W.data receiver bytes message).rest = read := by
    generalize (W.data receiver bytes message).rest = rest at hread
    rw [hread, taken_append]
  unfold Wire.decoded at h ⊢
  rw [List.foldl_append, h, htaken]
  simp only [List.foldl_cons, List.foldl_nil, hsame]

/-- DATA is only given where no chunk was acknowledged before it in its transaction. -/
def Unmixed (l : Loop W) (e : Event) : Prop :=
  ∀ w bytes receiver, e = .turn w → l.bytes = some bytes → l.state = .command receiver →
    (W.request receiver bytes).2.2 = .request .data → l.session.recipients ≠ [] →
      l.session.message = [] ∧ l.session.messageTooBig = false

variable {bytes : List UInt8}

/-- A turn of the loop that waits for a command. -/
theorem Inv.turn_command {receiver : W.RequestReceiver} (h : Inv kind l)
    (hstate : l.state = .command receiver)
    (hunmixed : (W.request receiver bytes).2.2 = .request .data → l.session.recipients ≠ [] →
      l.session.message = [] ∧ l.session.messageTooBig = false) :
    Inv kind (l.turn w bytes) := by
  have hready : Ready W kind l.session := ⟨h.kept, by simpa [Carried, hstate] using h.carried⟩
  unfold Loop.turn
  rw [hstate]
  dsimp only
  generalize W.request receiver bytes = heard at hunmixed ⊢
  obtain ⟨receiver', rest, heard⟩ := heard
  cases heard with
  | request request =>
    dsimp only
    have hfits := next_fits w l.session request
    have hcommand := hready.command w request
    refine hcommand.next l w receiver' rest hstate (fun hdata => ?_) (fun size last hbdat => ?_)
      (fun step hauth => ?_)
    · rw [hdata] at hfits
      obtain ⟨rfl, hr⟩ := hfits
      rw [command_data hr]
      exact ⟨hr, hunmixed rfl hr⟩
    · rwa [hbdat] at hfits
    · rwa [hauth] at hfits
  | needsMoreData => exact (hready.inv_command l receiver').bytes none
  | error e =>
    have hquiet := hready.quiet (quiet_error l.session e.text)
    have hinv : Inv kind { l with session := (l.session.error e.text).1, state := .command receiver',
                                  closed := (l.session.error e.text).2 } :=
      ⟨hquiet.toKept, hquiet.waiting⟩
    exact hinv.goOn rest

/-- A deed that adds bytes to the transaction and nothing else. -/
theorem Kept.received {d : Deed} (h : Kept W kind s) (hopen : s.envelope ≠ none)
    (hd : ∀ t : Transaction, t.after W d = { t with bytes := t.bytes ++ bytes })
    (hnew : ∀ account envelope recipients message, d ≠ .handed account envelope recipients message) :
    Kept W kind (s.did d) := by
  have hown : own W (s.did d).log = { own W s.log with bytes := (own W s.log).bytes ++ bytes } := by
    rw [← hd]
    exact own_snoc
  refine ⟨h.port, h.good.snoc fun _ _ _ _ heq => absurd heq (hnew _ _ _ _), fun e he => ?_,
    fun hnone => absurd hnone hopen⟩
  have hold := h.opened e he
  rw [hown]
  exact ⟨hold.sender, hold.recipients, hold.named, hold.made⟩

/-- A turn that reads data. -/
theorem Inv.turn_data {receiver : W.DataReceiver} (h : Inv kind l)
    (hstate : l.state = .data receiver) : Inv kind (l.turn w bytes) := by
  obtain ⟨hopen, hfits, hbytes, hdecoded⟩ : l.session.envelope ≠ none ∧
      l.session.messageTooBig = false ∧ (own W l.session.log).bytes = [] ∧
        W.decoded l.arrived = (receiver, l.session.message) := by
    simpa [Carried, hstate] using h.carried
  have hdecoded' := decoded_snoc hdecoded bytes
  unfold Loop.turn
  rw [hstate]
  dsimp only
  generalize W.data receiver bytes l.session.message = ingest at hdecoded' ⊢
  have hkept : Kept W kind { l.session with message := ingest.buffer } :=
    h.kept.buffer hopen ingest.buffer l.session.messageTooBig
  split
  · -- The data is complete: it is all there is in the transaction.
    have hlogged := hkept.received (d := .data (l.arrived ++ [taken bytes ingest.rest])) hopen
      (fun _ => rfl) (fun _ _ _ _ hd => nomatch hd)
    refine (hlogged.endMessage hfits ?_ hopen w).toCommand l _
    change ingest.buffer = (own W (l.session.log ++ [_])).bytes
    rw [own_snoc]
    change ingest.buffer = (own W l.session.log).bytes ++ (W.decoded _).2
    rw [hbytes, hdecoded', List.nil_append]
  split
  · have hinv : Inv kind { l with
        session := { l.session with message := [], messageTooBig := true },
        state := .dataDiscard (W.newDummyData ingest.receiver) } :=
      ⟨h.kept.buffer hopen [] true, hopen, rfl⟩
    exact hinv.goOn _
  · exact ⟨hkept, hopen, hfits, hbytes, hdecoded'⟩

/-- A turn that reads a chunk that fits. -/
theorem Inv.turn_bdat {receiver : W.BdatReceiver} (h : Inv kind l)
    (hstate : l.state = .bdat receiver) : Inv kind (l.turn w bytes) := by
  obtain ⟨hopen, hfits, hmessage⟩ : l.session.envelope ≠ none ∧ l.session.messageTooBig = false ∧
      l.session.message = (own W l.session.log).bytes ++ l.arrived.flatten := by
    simpa [Carried, hstate] using h.carried
  have hbuffer : (W.bdat receiver bytes l.session.message).buffer = (own W l.session.log).bytes ++
      (l.arrived ++ [taken bytes (W.bdat receiver bytes l.session.message).rest]).flatten := by
    obtain ⟨read, hread, hbuffer⟩ := W.bdat_appends receiver bytes l.session.message
    generalize (W.bdat receiver bytes l.session.message).rest = rest at hread
    rw [hbuffer, hread, taken_append, List.flatten_append, List.flatten_singleton, ← List.append_assoc,
      ← hmessage]
  unfold Loop.turn
  rw [hstate]
  dsimp only
  generalize W.bdat receiver bytes l.session.message = ingest at hbuffer ⊢
  have hkept : Kept W kind { l.session with message := ingest.buffer } :=
    h.kept.buffer hopen ingest.buffer l.session.messageTooBig
  split
  · have hlogged := hkept.received
      (d := .chunk (l.arrived ++ [taken bytes ingest.rest]).flatten) hopen
      (fun _ => rfl) (fun _ _ _ _ hd => nomatch hd)
    have hown : ingest.buffer =
        (own W (l.session.log ++ [.chunk (l.arrived ++ [taken bytes ingest.rest]).flatten])).bytes := by
      rw [own_snoc]
      exact hbuffer
    split
    · exact (hlogged.endMessage hfits hown hopen w).toCommand l _
    · have hready : Ready W kind ({ l.session with message := ingest.buffer }.did
          (.chunk (l.arrived ++ [taken bytes ingest.rest]).flatten)) := ⟨hlogged, fun _ => hown⟩
      exact (hready.quiet (quiet_reply _ _)).toCommand l _
  · exact ⟨hkept, hopen, hfits, hbuffer⟩

/-- A turn that throws away a chunk of a message that is too big. -/
theorem Inv.turn_bdatTooBig {receiver : W.DummyDataReceiver} {last : Bool}
    (h : Inv kind l) (hstate : l.state = .bdatTooBig receiver last) : Inv kind (l.turn w bytes) := by
  obtain ⟨hopen, hbig⟩ : l.session.envelope ≠ none ∧ l.session.messageTooBig = true := by
    simpa [Carried, hstate] using h.carried
  have hthrown : ∀ bytes, Ready W kind (l.session.did (.chunk bytes)) := fun bytes => by
    refine ⟨h.kept.received hopen (fun _ => rfl) (fun _ _ _ _ hd => nomatch hd), fun hfits => ?_⟩
    have hfits : l.session.messageTooBig = false := hfits
    rw [hbig] at hfits
    cases hfits
  unfold Loop.turn
  rw [hstate]
  dsimp only
  split
  · split
    · exact h.kept.refuseMessage.toCommand l _
    · exact ((hthrown _).quiet (quiet_reply _ _)).toCommand l _
  · exact ⟨h.kept, hopen, hbig⟩

/-- A turn of a login's dialogue: no transaction is open, and none is opened. -/
theorem Inv.turn_auth {step : AuthStep} {receiver : W.LineReceiver} (h : Inv kind l)
    (hstate : l.state = .auth step receiver) : Inv kind (l.turn w bytes) := by
  have hidle : l.session.envelope = none := by simpa [Carried, hstate] using h.carried
  obtain ⟨_, hm, _, hown⟩ := h.kept.idle hidle
  have hready : Ready W kind l.session := ⟨h.kept, fun _ => by rw [hm, hown]⟩
  unfold Loop.turn
  rw [hstate]
  dsimp only
  obtain ⟨receiver', rest, done⟩ := W.line receiver bytes
  cases done with
  | false => exact ⟨h.kept, hidle⟩
  | true =>
    dsimp only
    generalize w.text.trim (w.fromUtf8Lossy (W.lineBuffer receiver')) = line
    have hquiet : Quiet l.session (l.session.authLine w step line).1 := quiet_authLine hidle step line
    have hafter := hready.quiet hquiet
    have hcommand := hafter.inv_command l W.newRequest
    cases (l.session.authLine w step line).2 with
    | auth step' =>
      have hinv : Inv kind { l with session := (l.session.authLine w step line).1,
                                    state := .auth step' W.newLine } :=
        ⟨hafter.toKept, hquiet.envelope.trans hidle⟩
      exact hinv.goOn rest
    | quit => exact hcommand.close
    | _ => exact hcommand.goOn rest

/-- **The step lemma.** -/
theorem Inv.step (h : Inv kind l) (hok : Unmixed l e) (hstep : step l e = some l') : Inv kind l' := by
  unfold Smtp.step at hstep
  split at hstep
  · cases hstep
  split at hstep
  · split at hstep
    · cases hstep
    · obtain rfl := Option.some.inj hstep
      exact h.bytes _
  · rename_i w bytes hbytes
    obtain rfl := Option.some.inj hstep
    cases hstate : l.state with
    | command receiver => exact h.turn_command hstate (hok w bytes receiver rfl hbytes hstate)
    | data receiver => exact h.turn_data hstate
    | bdat receiver => exact h.turn_bdat hstate
    | bdatTooBig receiver last => exact h.turn_bdatTooBig hstate
    | auth step receiver => exact h.turn_auth hstate
    | dataDiscard receiver =>
      unfold Loop.turn
      rw [hstate]
      dsimp only
      obtain ⟨receiver', rest, done⟩ := W.dummy receiver bytes
      cases done with
      | true => exact h.kept.refuseMessage.toCommand l rest
      | false => exact ⟨h.kept, by simpa [Carried, hstate] using h.carried⟩
    | bdatDiscard receiver =>
      have hready : Ready W kind l.session := ⟨h.kept, by simpa [Carried, hstate] using h.carried⟩
      unfold Loop.turn
      rw [hstate]
      dsimp only
      obtain ⟨receiver', rest, done⟩ := W.dummy receiver bytes
      cases done with
      | true => exact (hready.quiet (quiet_reply _ _)).toCommand l rest
      | false => exact ⟨h.kept, hready.waiting⟩
  · obtain rfl := Option.some.inj hstep
    exact h.close
  · cases hstep

theorem inv_start (W : Wire) (kind : ListenerKind) (hostname : String) (maxSize : Nat) :
    Inv kind (start W kind hostname maxSize) := by
  have hnew : Ready W kind { kind, isTls := decide (kind = .submissionTls) : Session } :=
    .of_idle rfl (fun _ _ _ _ _ hpre => absurd (List.prefix_nil.1 hpre) (by simp)) rfl rfl rfl rfl rfl
  have hready := hnew.quiet (quiet_reply _ s!"220 {hostname} ESMTP UwUMail ready\r\n")
  exact ⟨hready.toKept, hready.waiting⟩

/-! ## 5. The run -/

/-- **A message is its own transaction.**  In every run in which DATA is only given where no chunk
waits, every message handed on is, byte for byte, what was acknowledged for its transaction, from
the sender and for the recipients accepted in it. -/
theorem a_message_is_its_own_transaction {hostname : String} {maxSize : Nat} {es : List Event}
    (hrun : Trace.run step (start W kind hostname maxSize) es = some l)
    (hok : Trace.Along step Unmixed (start W kind hostname maxSize) es) :
    Good W kind l.session.log :=
  (Trace.run_invariant (fun _ _ _ h hok hstep => Inv.step h hok hstep)
    (inv_start W kind hostname maxSize) hok hrun).kept.good

instance (l : Loop W) (e : Event) : Decidable (Unmixed l e) :=
  match e, hb : l.bytes, hs : l.state with
  | .turn w, some bytes, .command receiver =>
    decidable_of_iff ((W.request receiver bytes).2.2 = .request .data → l.session.recipients ≠ [] →
      l.session.message = [] ∧ l.session.messageTooBig = false) (by simp [Unmixed, hb, hs])
  | .read _, _, _ => isTrue fun _ _ _ he => nomatch he
  | .hangUp, _, _ => isTrue fun _ _ _ he => nomatch he
  | .turn _, none, _ => isTrue fun _ _ _ _ hb' => by simp [hb] at hb'
  | .turn _, some _, .data _ => isTrue fun _ _ _ _ _ hs' => by simp [hs] at hs'
  | .turn _, some _, .dataDiscard _ => isTrue fun _ _ _ _ _ hs' => by simp [hs] at hs'
  | .turn _, some _, .bdat _ => isTrue fun _ _ _ _ _ hs' => by simp [hs] at hs'
  | .turn _, some _, .bdatTooBig _ _ => isTrue fun _ _ _ _ _ hs' => by simp [hs] at hs'
  | .turn _, some _, .bdatDiscard _ => isTrue fun _ _ _ _ _ hs' => by simp [hs] at hs'
  | .turn _, some _, .auth _ _ => isTrue fun _ _ _ _ _ hs' => by simp [hs] at hs'

/-- The messages handed on, each with what had happened by then. -/
def messagesOf (before : List Deed) : List Deed → List (List Deed × List UInt8)
  | [] => []
  | .handed account envelope recipients message :: ds =>
    (before, message) :: messagesOf (before ++ [.handed account envelope recipients message]) ds
  | d :: ds => messagesOf (before ++ [d]) ds

theorem Good.messagesOf {before ds b : List Deed} {message : List UInt8}
    (h : Good W kind (before ++ ds)) (hm : (b, message) ∈ messagesOf before ds) :
    message = (own W b).bytes := by
  induction ds generalizing before with
  | nil => cases hm
  | cons d ds ih =>
    have hrest : Good W kind ((before ++ [d]) ++ ds) := by simpa using h
    cases d with
    | handed account envelope recipients message' =>
      rcases List.mem_cons.1 hm with hm | hm
      · obtain ⟨rfl, rfl⟩ := Prod.mk.inj hm
        exact (h b account envelope recipients message ⟨ds, by simp⟩).1
      · exact ih hrest hm
    | _ => exact ih hrest hm

/-! ## 6. A session -/

/-- The receivers on lines that are whole, as far as the session below needs them. -/
def readData (buffer : List UInt8) : List UInt8 → List UInt8 × List UInt8 × Bool
  | [] => ([], buffer, false)
  | b :: bytes =>
    let buffer := buffer ++ [b]
    if [13, 10, 46, 13, 10].isSuffixOf buffer then (bytes, buffer.take (buffer.length - 3), true)
    else readData buffer bytes

theorem readData_reads (buffer bytes : List UInt8) : ∃ read, bytes = read ++ (readData buffer bytes).1 ∧
    readData buffer read = ([], (readData buffer bytes).2) := by
  induction bytes generalizing buffer with
  | nil => exact ⟨[], rfl, rfl⟩
  | cons b bytes ih =>
    by_cases hend : [13, 10, 46, 13, 10].isSuffixOf (buffer ++ [b])
    · exact ⟨[b], by simp [readData, hend], by simp [readData, hend]⟩
    · obtain ⟨read, hread, hsame⟩ := ih (buffer ++ [b])
      refine ⟨b :: read, ?_, ?_⟩
      · simp only [readData, hend, Bool.false_eq_true, if_false, List.cons_append]
        rw [← hread]
      · simp only [readData, hend, Bool.false_eq_true, if_false]
        exact hsame

def ascii (s : String) : List UInt8 := s.toList.map fun c => UInt8.ofNat c.toNat

/-- The commands of the session below. -/
def readCommand (line : List UInt8) : Heard :=
  if line = ascii "EHLO mx.example.net\r\n" then .request (.ehlo "mx.example.net")
  else if line = ascii "MAIL FROM:<ora@example.net>\r\n" then
    .request (.mail { address := "ora@example.net" })
  else if line = ascii "RCPT TO:<mini@example.org>\r\n" then
    .request (.rcpt { address := "mini@example.org" })
  else if line = ascii "BDAT 7\r\n" then .request (.bdat 7 false)
  else if line = ascii "BDAT 7 LAST\r\n" then .request (.bdat 7 true)
  else if line = ascii "DATA\r\n" then .request .data
  else .error .unknownCommand

def plainWire : Wire where
  RequestReceiver := List UInt8
  newRequest := []
  request line bytes :=
    if 10 ∈ bytes then
      ([], (bytes.dropWhile (· != 10)).drop 1, readCommand (line ++ bytes.takeWhile (· != 10) ++ [10]))
    else (line ++ bytes, [], .needsMoreData)
  DataReceiver := Unit
  newData := ()
  data _ bytes buffer :=
    let (rest, buffer, done) := readData buffer bytes
    { receiver := (), rest, buffer, done }
  data_reads _ bytes buffer := by
    obtain ⟨read, hread, hsame⟩ := readData_reads buffer bytes
    exact ⟨read, hread, by simp only [hsame]⟩
  BdatReceiver := Nat × Bool
  newBdat size last := (size, last)
  isLast receiver := receiver.2
  bdat receiver bytes buffer :=
    { receiver := (receiver.1 - bytes.length, receiver.2), rest := bytes.drop receiver.1,
      buffer := buffer ++ bytes.take receiver.1, done := receiver.1 ≤ bytes.length }
  bdat_appends receiver bytes buffer :=
    ⟨bytes.take receiver.1, (List.take_append_drop _ _).symm, rfl⟩
  DummyDataReceiver := Nat
  newDummyData _ := 0
  newDummyBdat size := size
  dummy left bytes := (left - bytes.length, bytes.drop left, decide (left ≤ bytes.length))
  LineReceiver := List UInt8
  newLine := []
  line buffer bytes :=
    (buffer ++ bytes.takeWhile (· != 10), (bytes.dropWhile (· != 10)).drop 1, decide (10 ∈ bytes))
  lineBuffer buffer := buffer

/-- A server with one mailbox, `mini@example.org`. -/
def plainWorld : World where
  text := Directory.asciiText
  hostname := "mail.example.org"
  maxMessageSize := 1000
  maxRecipients := 10
  requireTlsForAuth := true
  offersTls := false
  handshake := false
  traps := []
  isLocalDomain domain := .ok (domain == "example.org")
  accountInternalOnly _ := .ok false
  addressesInternalOnly _ := .ok false
  accountOwnsAddress _ _ := .ok false
  reportRecipient _ := .ok none
  forwardAddressTargets _ := .ok none
  groupDelivery _ := .ok none
  groupAccepts _ _ _ := .ok true
  maskedDelivery _ := .ok none
  resolveRecipient address := .ok (if address = "mini@example.org" then some 1 else none)
  accountById id := .ok (if id = 1 then some { id := 1, login := "mini@example.org" } else none)
  deliveryTarget id := .ok (some id)
  srsReverse _ := none
  isBlocked := false
  begin _ := true
  authenticateMail _ _ := .ok .denied
  authenticateOauth _ := .ok .denied
  decodeBase64 _ := none
  decodeUtf8 _ := none
  fromUtf8Lossy _ := ""
  parseXoauth2 _ := none
  parseOauthbearer _ := none
  saslBearerError _ := ""
  mimeStructure raw := .ok raw
  hops _ := 1
  normalizeLineEndings raw := raw
  submit _ _ _ _ := "550 5.7.1 You are not allowed to send\r\n"
  receive _ _ _ := "250 2.0.0 OK\r\n"

def greeted : String :=
  "EHLO mx.example.net\r\nMAIL FROM:<ora@example.net>\r\nRCPT TO:<mini@example.org>\r\n"

/-- Everything in one read, and then as many turns as it takes. -/
def pipelined (client : String) (turns : Nat) : List Event :=
  .read (ascii client) :: List.replicate turns (.turn plainWorld)

/-- Two chunks make one message. -/
theorem two_chunks_make_one_message : ∃ l, Trace.run step (start plainWire .mx "mail.example.org" 1000)
      (pipelined (greeted ++ "BDAT 7\r\nHallo, BDAT 7 LAST\r\nWelt!\r\n") 7) = some l ∧
    Good plainWire .mx l.session.log ∧
      (messagesOf [] l.session.log).map (·.2) = [ascii "Hallo, Welt!\r\n"] := by
  have hrun : (Trace.run step (start plainWire .mx "mail.example.org" 1000)
      (pipelined (greeted ++ "BDAT 7\r\nHallo, BDAT 7 LAST\r\nWelt!\r\n") 7)).any fun l =>
        (messagesOf [] l.session.log).map (·.2) == [ascii "Hallo, Welt!\r\n"] := by
    decide +kernel
  obtain ⟨l, hl, hmessages⟩ := (Option.any_eq_true _ _).1 hrun
  exact ⟨l, hl, a_message_is_its_own_transaction hl (by decide +kernel), by simpa using hmessages⟩

/-- A client sends a chunk, is told that it was received, and gives DATA for the rest: the message
is the rest. -/
theorem a_chunk_before_data_is_lost : ¬∀ (W : Wire) (kind : ListenerKind) (hostname : String)
    (maxSize : Nat) (es : List Event) (l : Loop W),
    Trace.run step (start W kind hostname maxSize) es = some l → Good W kind l.session.log := by
  intro hall
  have hrun : (Trace.run step (start plainWire .mx "mail.example.org" 1000)
      (pipelined (greeted ++ "BDAT 7\r\nHallo, DATA\r\nWelt!\r\n.\r\n") 7)).any fun l =>
        (messagesOf [] l.session.log).any fun m => m.2 != (own plainWire m.1).bytes := by
    decide +kernel
  obtain ⟨l, hl, hbad⟩ := (Option.any_eq_true _ _).1 hrun
  obtain ⟨m, hm, hne⟩ := List.any_eq_true.1 hbad
  have hgood : Good plainWire .mx ([] ++ l.session.log) := hall plainWire .mx _ _ _ l hl
  rw [hgood.messagesOf hm] at hne
  simp at hne

end UwuMail.Smtp
