/-
# Mail that leaves does not fall back

`outbound.rs`: which hosts a domain's mail is taken to, and what a session with one of them asks of
TLS before it says MAIL FROM.

The TLSA records of a host and the MTA-STS policy of the domain are combined into three fields of a
`Target` in one place, and read in another when the TLS settings are chosen.

**Every session with an MX host is protected by what its domain asks for** (`never_downgrades`), in
every sequence of deliveries, whatever DNS, the web and the remote server answer.  TLSA records
count where the domain's MX records validate as well; and where validated records exist but none is
usable, TLS is required and the certificate is not checked, also under an enforced policy
(`an_unusable_record_takes_the_policy_away`).

After MAIL FROM nothing is decided about TLS any more: the rest of the transaction is what the
server makes of it (`Remote.transaction`).
-/
import UwuMail.Lib.Tx
import UwuMail.Smtp.Policy

namespace UwuMail.Smtp.Outbound

open Directory (Text asciiText rsplitOnce)
open Sts (Policy Cache)

/-! ## 1. What a delivery hears -/

inductive Outcome
  | delivered (text : String)
  | deferred (text : String)
  | failed (text : String)

inductive DnsError
  | recordNotFound
  | other (what : String)

structure Reply where
  code : Nat
  text : String := ""

def Reply.isPositive (r : Reply) : Bool := 200 ≤ r.code && r.code < 400

structure Capabilities where
  starttls : Bool := false
  size : Option Nat := none
  smtputf8 : Bool := false

/-- What a server does in one session.  An error is one of the connection. -/
structure Remote where
  connects : Except String PUnit
  greeting : Except String Reply
  ehlo : Except String (Reply × Capabilities)
  helo : Except String Reply
  starttls : Except String Reply
  /-- It takes part in a TLS handshake. -/
  handshakes : Bool
  endEntity : Cert
  intermediates : List Cert
  ehloTls : Except String (Reply × Capabilities)
  login : Except String Reply
  /-- From MAIL FROM on. -/
  transaction : Except String (List Outcome)

inductive RelaySecurity
  | tls
  | starttls
  | none
  deriving DecidableEq

structure RelayConfig where
  host : String
  security : RelaySecurity
  /-- A user name and a password are set. -/
  login : Bool
  deriving DecidableEq

inductive Via
  | mx
  | route
  | relay (config : RelayConfig)
  deriving DecidableEq

structure Target where
  host : String
  addrs : List String
  via : Via
  /-- The domain's MTA-STS policy is enforced: TLS with a valid certificate for `host`, or nothing. -/
  verifiedTls : Bool := false
  /-- The domain's MTA-STS policy is being tested. -/
  stsTesting : Bool := false
  /-- TLSA records of the host, which come before MTA-STS. -/
  dane : Dane := .off

/-- A message for one domain, and every answer on the way. -/
structure Delivery where
  domain : String
  returnPath : String
  recipients : List String
  size : Nat
  /-- `delivery.routes`, for this domain. -/
  route : Option String
  /-- `sender_route`: the outgoing server of a fetched address, and its public addresses. -/
  senderRoute : Except Outcome (Option (RelayConfig × List String))
  relay : Option RelayConfig
  requireTls : Bool
  allowPrivateMx : Bool
  /-- The system's own resolver, for hosts that are named. -/
  lookup : String → List String
  mx : Except DnsError (List String)
  /-- The validating resolver works, and what it says. -/
  works : Bool
  checkedMx : Checked (Nat × String)
  tlsa : String → Checked Tlsa
  sts : Sts.Answers
  ips : String → Except DnsError (List String)
  isPublic : String → Bool
  /-- When MAIL FROM can be said at the earliest. -/
  time : Int
  now_le : sts.now ≤ time
  remote : String → Remote

/-! ## 2. Targets -/

def maxHosts : Nat := 5

/-- A route, `host:port`. -/
def parseRoute (route : String) : Option String :=
  (rsplitOnce ':' route.toList).bind fun (host, port) =>
    (Sts.parseU64 port).bind fun port =>
      if port < 65536 then
        let brackets (c : Char) : Bool := c == '[' || c == ']'
        some (String.ofList (Directory.trimEnd brackets (host.dropWhile brackets)))
      else none

/-- The hosts of the ordinary MX answer, and whether the domain itself stands in for them. -/
def ordinaryHosts (d : Delivery) : Except Outcome (List String × Bool) :=
  match d.mx with
  | .ok records =>
    let hosts := records.map fun host => String.ofList (Directory.trimEnd (· == '.') host.toList)
    .ok (if hosts.isEmpty then ([d.domain], true) else (hosts, false))
  | .error .recordNotFound => .ok ([d.domain], true)
  | .error (.other what) => .error (.deferred s!"DNS lookup for {d.domain} failed: {what}")

/-- The hosts a validated answer names, not the ones an ordinary resolver answered: that is the
answer an attacker on the path would forge. -/
def validatedHosts (validated : ValidatedMx) (ordinary : List String × Bool) : List String × Bool :=
  match validated with
  | .secure hosts => (hosts, false)
  | _ => ordinary

/-- What one MX host becomes. -/
def mxTarget (d : Delivery) (validated : ValidatedMx) (policy : Option Policy) (host : String)
    (addrs : List String) : Target :=
  let dane :=
    match validated with
    | .secure _ => Dane.of (hostTlsa (d.tlsa host))
    | _ => .off
  let enforced := policy.any (·.mode = .enforce)
  { host, addrs, via := .mx, dane,
    verifiedTls := enforced && !dane.applies,
    stsTesting := policy.isSome && !enforced && !dane.applies }

/-- The loop over the hosts: the targets, and how many hosts were looked up and how many of these
only had private addresses. -/
def targetsOf (d : Delivery) (validated : ValidatedMx) (policy : Option Policy) (implicit : Bool) :
    List String → Except Outcome (List Target × Nat × Nat)
  | [] => .ok ([], 0, 0)
  | host :: hosts =>
    match d.ips host with
    | .ok ips =>
      let addrs := ips.filter fun ip => d.allowPrivateMx || d.isPublic ip
      (targetsOf d validated policy implicit hosts).map fun (targets, lookedUp, inside) =>
        if !ips.isEmpty && addrs.isEmpty then (targets, lookedUp + 1, inside + 1)
        else (mxTarget d validated policy host addrs :: targets, lookedUp + 1, inside)
    | .error .recordNotFound =>
      if implicit then .error (.failed s!"550 5.1.2 The domain {d.domain} does not exist")
      else targetsOf d validated policy implicit hosts
    | .error (.other _) => targetsOf d validated policy implicit hosts

/-- The hosts of an enforced policy. -/
def allowedHosts (d : Delivery) (policy : Option Policy) (hosts : List String) :
    Except Outcome (List String) :=
  match policy with
  | some policy =>
    if policy.mode = .enforce then
      let allowed := hosts.filter policy.allows
      if allowed.isEmpty then
        .error (.deferred s!"MTA-STS: the policy of {d.domain} allows none of its mail servers")
      else .ok allowed
    else .ok hosts
  | none => .ok hosts

/-- The part of `resolve_targets` that delivers to MX hosts, after the policy was looked up. -/
def mxTargets (d : Delivery) (validated : ValidatedMx) (sts : Sts.Lookup) (hosts : List String)
    (implicit : Bool) : Except Outcome (List Target) := do
  let policy := sts.policy.filter (·.mode ≠ .none)
  let hosts ← allowedHosts d policy hosts
  -- With validated MX records, the TLSA records of their hosts come before MTA-STS.
  let (targets, lookedUp, inside) ← targetsOf d validated policy implicit (hosts.take maxHosts)
  if targets.isEmpty ∧ 0 < inside ∧ inside = lookedUp then
    .error (.failed
      s!"550 5.4.4 The mail servers of {d.domain} point to private addresses, not to the internet")
  else .ok targets

/-- `resolve_targets`, with the policies that are kept afterwards and the one that was fetched. -/
def resolveTargets (x : Text) (cache : Cache) (d : Delivery) :
    Except Outcome (List Target) × Cache × Option Policy :=
  match d.route with
  | some route =>
    match parseRoute route with
    | none => (.error (.deferred s!"the route for {d.domain} is not host:port"), cache, none)
    | some host => (.ok [{ host, addrs := d.lookup host, via := .route }], cache, none)
  | none =>
    match d.senderRoute with
    | .error outcome => (.error outcome, cache, none)
    | .ok (some (relay, addrs)) => (.ok [{ host := relay.host, addrs, via := .relay relay }], cache, none)
    | .ok none =>
      match d.relay with
      | some relay =>
        (.ok [{ host := relay.host, addrs := d.lookup relay.host, via := .relay relay }], cache, none)
      | none =>
        match ordinaryHosts d with
        | .error outcome => (.error outcome, cache, none)
        | .ok ordinary =>
          let validated := validatedMx d.works d.checkedMx
          if validated = .bogus then
            (.error (.deferred s!"DNSSEC: the MX records of {d.domain} do not validate"), cache, none)
          else
            let hosts := validatedHosts validated ordinary
            if hosts.1 = [""] then
              (.error (.failed s!"556 5.1.10 {d.domain} does not accept mail (null MX)"), cache, none)
            else
              let looked := Sts.policyFor x cache d.domain d.sts
              (mxTargets d validated looked.1 hosts.1 hosts.2, looked.2)

/-! ## 3. A session -/

/-- The TLS settings of a connection: which certificates they accept. -/
inductive ClientConfig
  /-- Every certificate. -/
  | opportunistic
  /-- A certificate that is valid for the host name. -/
  | verified
  /-- A certificate that TLSA records match. -/
  | dane (records : List Tlsa) (names : List String)
  /-- Every certificate, with a note of what is wrong with it. -/
  | reportOnly

def ClientConfig.accepts (p : Pki) (name : String) (endEntity : Cert) (intermediates : List Cert) :
    ClientConfig → Bool
  | .opportunistic => true
  | .verified => p.webpki p.systemRoots endEntity intermediates name
  | .dane records names => verify p records endEntity intermediates names
  | .reportOnly => true

/-- A TLS connection that stands: the settings, and the certificates that were presented. -/
structure Handshake where
  config : ClientConfig
  name : String
  endEntity : Cert
  intermediates : List Cert

/-- `tls_handshake` on a plain connection: the TLS library completes it where the settings accept
the certificate. -/
def tlsHandshake (p : Pki) (config : ClientConfig) (host : String) (r : Remote) : Except String Handshake :=
  match p.serverName (String.ofList (Directory.trimEnd (· == '.') host.toList)) with
  | none => .error "invalid name"
  | some name =>
    if r.handshakes && config.accepts p name r.endEntity r.intermediates then
      .ok { config, name, endEntity := r.endEntity, intermediates := r.intermediates }
    else .error "TLS handshake failed"

/-- The names DANE-TA certificates may carry. -/
def daneNames (p : Pki) (names : List String) : List String :=
  names.filterMap fun name => p.serverName (String.ofList (Directory.trimEnd (· == '.') name.toList))

/-- Which settings STARTTLS uses. -/
def tlsConfig (p : Pki) (d : Delivery) (target : Target) : ClientConfig :=
  match target.dane, target.via with
  | .verify records, .mx | .verify records, .route => .dane records (daneNames p [target.host, d.domain])
  | _, .relay relay =>
    -- A "none" relay may carry a self-signed certificate on the local network.
    if relay.security ≠ .none || target.verifiedTls then .verified
    else if target.stsTesting then .reportOnly
    else .opportunistic
  | _, _ =>
    if target.verifiedTls then .verified
    else if target.stsTesting then .reportOnly
    else .opportunistic

/-- Whether STARTTLS is asked for, and whether mail may not go without it. -/
def wantTls (d : Delivery) (target : Target) : Bool × Bool :=
  match target.via with
  | .relay relay => (relay.security = .starttls || relay.security = .none, relay.security = .starttls)
  | _ => (true, d.requireTls || target.verifiedTls || target.dane.applies)

/-- EHLO, or HELO where that is refused: what the server can do. -/
def hello (r : Remote) : Except String Capabilities := do
  let (reply, caps) ← r.ehlo
  if reply.isPositive then .ok caps
  else
    let helo ← r.helo
    if helo.isPositive then .ok caps else .error s!"HELO: {helo.code} {helo.text}"

/-- `session` up to the point where it may log in or say MAIL FROM: the TLS connection, if there is
one, and what the server can do. -/
def openSession (p : Pki) (d : Delivery) (target : Target) (r : Remote) :
    Except String (Option Handshake × Capabilities) := do
  r.connects
  let implicitTls : Option Handshake ←
    match target.via with
    | .relay relay =>
      if relay.security = .tls then (tlsHandshake p .verified target.host r).map some else .ok none
    | _ => .ok none
  let greeting ← r.greeting
  if greeting.code ≠ 220 then .error s!"greeting: {greeting.code} {greeting.text}"
  else
    let caps ← hello r
    if (wantTls d target).1 && implicitTls.isNone then
      if caps.starttls then
        let reply ← r.starttls
        if reply.code = 220 then
          let handshake ← (tlsHandshake p (tlsConfig p d target) target.host r).mapError ("TLS: " ++ ·)
          let (reply, caps) ← r.ehloTls
          if reply.isPositive then .ok (some handshake, caps)
          else .error s!"EHLO after STARTTLS: {reply.code} {reply.text}"
        else if (wantTls d target).2 then .error s!"STARTTLS refused: {reply.code} {reply.text}"
        else .ok (none, caps)
      else if (wantTls d target).2 then .error "the server does not offer STARTTLS"
      else .ok (none, caps)
    else .ok (implicitTls, caps)

/-- What a session did. -/
structure Attempt where
  target : Target
  addr : String
  tls : Option Handshake := none
  /-- MAIL FROM was said. -/
  mailFrom : Bool := false

def isAscii (s : String) : Bool := s.toList.all fun c => c.toNat < 128

/-- `session`: what it did, and its outcomes.  An error means nothing was accepted and another host
may be tried. -/
def session (p : Pki) (d : Delivery) (target : Target) (addr : String) :
    Attempt × Except String (List Outcome) :=
  let r := d.remote addr
  let everyone (outcome : Outcome) := d.recipients.map fun _ => outcome
  match openSession p d target r with
  | .error e => ({ target, addr }, .error e)
  | .ok (tls, caps) =>
    let attempt : Attempt := { target, addr, tls }
    let login : Except String (Option Reply) :=
      match target.via with
      | .relay relay => if relay.login then r.login.map some else .ok none
      | _ => .ok none
    match login with
    | .error e => (attempt, .error e)
    | .ok reply =>
      if reply.any (!·.isPositive) then
        (attempt, .ok (everyone (.deferred "the relay refused our login")))
      else if caps.size.any (d.size > ·) then
        (attempt, .ok (everyone (.failed
          s!"552 5.3.4 The message is too big for {target.host} (limit {caps.size.getD 0} bytes)")))
      else if (!isAscii d.returnPath || d.recipients.any (!isAscii ·)) && !caps.smtputf8 then
        (attempt, .ok (everyone (.failed
          "553 5.6.7 The receiving server does not support international addresses")))
      else ({ attempt with mailFrom := true }, r.transaction)

/-! ## 4. Deliveries -/

/-- The addresses of a host, until a session succeeds: what was tried, and whether one did. -/
def tryAddrs (p : Pki) (d : Delivery) (target : Target) : List String → List Attempt × Bool
  | [] => ([], false)
  | addr :: addrs =>
    let (attempt, result) := session p d target addr
    match result with
    | .ok _ => ([attempt], true)
    | .error _ =>
      let (attempts, done) := tryAddrs p d target addrs
      (attempt :: attempts, done)

/-- The hosts of a domain, until a session succeeds. -/
def tryTargets (p : Pki) (d : Delivery) : List Target → List Attempt
  | [] => []
  | target :: targets =>
    -- An MX host whose TLSA records do not validate is not used.
    if target.dane = .bogus then tryTargets p d targets
    else
      let (attempts, done) := tryAddrs p d target target.addrs
      if done then attempts else attempts ++ tryTargets p d targets

/-- `deliver_domain`: the sessions it holds. -/
def deliverDomain (p : Pki) (d : Delivery) : Except Outcome (List Target) → List Attempt
  | .ok targets => tryTargets p d targets
  | .error _ => []

/-- A policy that was fetched. -/
structure Fetch where
  domain : String
  policy : Policy
  fetchedAt : Int
  /-- The store took it. -/
  kept : Bool
  deriving DecidableEq

/-- What the server knows between two deliveries.  `fetches` is no field of the source: every policy
that was fetched, the latest last. -/
structure Server where
  cache : Cache := []
  fetches : List Fetch := []

/-- A delivery: the server afterwards, and the sessions. -/
def deliver (x : Text) (p : Pki) (s : Server) (d : Delivery) : Server × List Attempt :=
  let resolved := resolveTargets x s.cache d
  let fetch (policy : Policy) : Fetch :=
    { domain := Sts.plainName d.domain, policy, fetchedAt := d.sts.fetchedAt, kept := d.sts.writable }
  ({ cache := resolved.2.1, fetches := s.fetches ++ (resolved.2.2.map fetch).toList },
    deliverDomain p d resolved.1)

/-- The server after a sequence of deliveries. -/
def runDeliveries (x : Text) (p : Pki) (ds : List Delivery) : Server :=
  ds.foldl (fun s d => (deliver x p s d).1) {}

variable {x : Text} {p : Pki} {cache : Cache} {d : Delivery} {s : Server} {target : Target}
  {host addr : String}

/-! ## 5. What a target says -/

/-- The TLSA records that count for a host: validated, under MX records that validate. -/
def validatedTlsa (d : Delivery) (host : String) : List Tlsa :=
  match validatedMx d.works d.checkedMx, d.tlsa host with
  | .secure _, .secure records => records
  | _, _ => []

def usableTlsa (d : Delivery) (host : String) : List Tlsa := (validatedTlsa d host).filter (·.usable)

/-- Neither the MX records nor the TLSA records of a host are bogus. -/
def Sound (d : Delivery) (host : String) : Prop :=
  match validatedMx d.works d.checkedMx with
  | .secure _ => d.tlsa host ≠ .bogus
  | .insecure => True
  | .bogus => False

/-- What the rest of `resolve_targets` makes of an MX host. -/
structure Fits (d : Delivery) (policy : Option Policy) (target : Target) : Prop where
  mx : validatedMx d.works d.checkedMx ≠ .bogus
  eq : target = mxTarget d (validatedMx d.works d.checkedMx) policy target.host target.addrs
  allowed : ∀ q ∈ policy, q.mode = .enforce → q.allows target.host

theorem mem_targetsOf {validated : ValidatedMx} {policy : Option Policy} {implicit : Bool}
    {hosts : List String} {targets : List Target} {n m : Nat}
    (h : targetsOf d validated policy implicit hosts = .ok (targets, n, m)) (ht : target ∈ targets) :
    target.host ∈ hosts ∧ target = mxTarget d validated policy target.host target.addrs := by
  induction hosts generalizing targets n m with
  | nil =>
    obtain ⟨rfl, _⟩ := Prod.mk.inj (Except.ok.inj h)
    cases ht
  | cons host hosts ih =>
    have hrest : ∀ {targets' n' m'}, targetsOf d validated policy implicit hosts = .ok (targets', n', m') →
        target ∈ targets' →
        target.host ∈ host :: hosts ∧ target = mxTarget d validated policy target.host target.addrs :=
      fun h' ht' => (ih h' ht').imp_left (List.mem_cons_of_mem _)
    unfold targetsOf at h
    split at h
    · rename_i ips _
      cases hloop : targetsOf d validated policy implicit hosts with
      | error e => simp [hloop, Except.map] at h
      | ok out =>
        obtain ⟨targets', n', m'⟩ := out
        simp only [hloop, Except.map, Except.ok.injEq] at h
        split at h
        · obtain ⟨rfl, _⟩ := Prod.mk.inj h
          exact hrest hloop ht
        · obtain ⟨rfl, _⟩ := Prod.mk.inj h
          rcases List.mem_cons.1 ht with rfl | ht
          · exact ⟨List.mem_cons_self, rfl⟩
          · exact hrest hloop ht
    · split at h
      · cases h
      · exact hrest h ht
    · exact hrest h ht

theorem mem_allowedHosts {policy : Option Policy} {hosts hosts' : List String}
    (h : allowedHosts d policy hosts = .ok hosts') (hh : host ∈ hosts') :
    ∀ q ∈ policy, q.mode = .enforce → q.allows host := by
  intro q hq henforce
  obtain rfl : policy = some q := hq
  simp only [allowedHosts, henforce, if_true] at h
  split at h
  · cases h
  · obtain rfl := Except.ok.inj h
    exact (List.mem_filter.1 hh).2

theorem mem_mxTargets {validated : ValidatedMx} {sts : Sts.Lookup} {hosts : List String} {implicit : Bool}
    {targets : List Target} (h : mxTargets d validated sts hosts implicit = .ok targets)
    (ht : target ∈ targets) :
    target = mxTarget d validated (sts.policy.filter (·.mode ≠ .none)) target.host target.addrs ∧
      ∀ q ∈ sts.policy.filter (·.mode ≠ .none), q.mode = .enforce → q.allows target.host := by
  unfold mxTargets at h
  obtain ⟨allowed, hallowed, h⟩ := Tx.except_bind_ok h
  obtain ⟨⟨targets', lookedUp, inside⟩, hloop, h⟩ := Tx.except_bind_ok h
  dsimp only at h
  split at h
  · cases h
  · obtain rfl := Except.ok.inj h
    obtain ⟨hhost, heq⟩ := mem_targetsOf hloop ht
    exact ⟨heq, mem_allowedHosts hallowed (List.mem_of_mem_take hhost)⟩

/-- **Where a target comes from.**  A target that is an MX host was made from the policy that was
looked up, and from a DNS answer that is not bogus. -/
theorem resolveTargets_mx {targets : List Target} (h : (resolveTargets x cache d).1 = .ok targets)
    (ht : target ∈ targets) (hvia : target.via = .mx) :
    (resolveTargets x cache d).2 = (Sts.policyFor x cache d.domain d.sts).2 ∧
      Fits d ((Sts.policyFor x cache d.domain d.sts).1.policy.filter (·.mode ≠ .none)) target := by
  unfold resolveTargets at h ⊢
  split at h
  · split at h
    · cases h
    · obtain rfl := Except.ok.inj h
      rw [List.mem_singleton.1 ht] at hvia
      cases hvia
  split at h
  · cases h
  · obtain rfl := Except.ok.inj h
    rw [List.mem_singleton.1 ht] at hvia
    cases hvia
  split at h
  · obtain rfl := Except.ok.inj h
    rw [List.mem_singleton.1 ht] at hvia
    cases hvia
  split at h
  · cases h
  dsimp only at h ⊢
  split at h
  · cases h
  rename_i hmx
  split at h
  · cases h
  rename_i hnull
  obtain ⟨heq, hallowed⟩ := mem_mxTargets h ht
  rw [if_neg hmx, if_neg hnull]
  exact ⟨rfl, hmx, heq, hallowed⟩

/-! ## 6. What a session does with it -/

/-- The server name a connection to `host` is made for. -/
def nameOf (p : Pki) (host : String) : Option String :=
  p.serverName (String.ofList (Directory.trimEnd (· == '.') host.toList))

/-- A handshake that was completed: for the name, and with a certificate the settings accept. -/
structure Stands (p : Pki) (config : ClientConfig) (host : String) (h : Handshake) : Prop where
  settings : h.config = config
  name : nameOf p host = some h.name
  accepts : config.accepts p h.name h.endEntity h.intermediates

theorem tlsHandshake_ok {config : ClientConfig} {r : Remote} {h : Handshake}
    (hok : tlsHandshake p config host r = .ok h) : Stands p config host h := by
  unfold tlsHandshake at hok
  split at hok
  · cases hok
  · rename_i name hname
    split at hok
    · rename_i haccepts
      obtain rfl := Except.ok.inj hok
      exact ⟨rfl, hname, (Bool.and_eq_true_iff.1 haccepts).2⟩
    · cases hok

/-- **The TLS of a session with an MX host**: there is some where it must be, and it is what the
target asks for. -/
theorem openSession_mx {r : Remote} {tls : Option Handshake} {caps : Capabilities}
    (hvia : target.via = .mx) (h : openSession p d target r = .ok (tls, caps)) :
    ((d.requireTls || target.verifiedTls || target.dane.applies) → tls.isSome) ∧
      ∀ hs ∈ tls, Stands p (tlsConfig p d target) target.host hs := by
  have hwant : wantTls d target = (true, d.requireTls || target.verifiedTls || target.dane.applies) := by
    simp [wantTls, hvia]
  unfold openSession at h
  rw [hwant] at h
  generalize hmust : (d.requireTls || target.verifiedTls || target.dane.applies) = must at h ⊢
  obtain ⟨_, _, h⟩ := Tx.except_bind_ok h
  simp only [hvia] at h
  obtain ⟨implicit, himplicit, h⟩ := Tx.except_bind_ok h
  obtain rfl := Except.ok.inj himplicit
  obtain ⟨greeting, _, h⟩ := Tx.except_bind_ok h
  split at h
  · cases h
  obtain ⟨caps', _, h⟩ := Tx.except_bind_ok h
  simp only [Option.isNone_none, Bool.and_true, if_true] at h
  split at h
  · obtain ⟨reply', _, h⟩ := Tx.except_bind_ok h
    split at h
    · obtain ⟨hs, hhandshake, h⟩ := Tx.except_bind_ok h
      obtain ⟨⟨reply'', caps''⟩, _, h⟩ := Tx.except_bind_ok h
      split at h
      · obtain ⟨rfl, _⟩ := Prod.mk.inj (Except.ok.inj h)
        refine ⟨fun _ => rfl, fun hs' hmem => ?_⟩
        obtain rfl : hs = hs' := Option.some.inj hmem
        cases hok : tlsHandshake p (tlsConfig p d target) target.host r with
        | error e => simp [hok, Except.mapError] at hhandshake
        | ok hs' =>
          rw [hok] at hhandshake
          obtain rfl := Except.ok.inj hhandshake
          exact tlsHandshake_ok hok
      · cases h
    split at h
    · cases h
    · rename_i hnot
      obtain ⟨rfl, _⟩ := Prod.mk.inj (Except.ok.inj h)
      exact ⟨fun hm => absurd hm hnot, fun _ hmem => nomatch hmem⟩
  · split at h
    · cases h
    · rename_i hnot
      obtain ⟨rfl, _⟩ := Prod.mk.inj (Except.ok.inj h)
      exact ⟨fun hm => absurd hm hnot, fun _ hmem => nomatch hmem⟩

theorem session_attempt (p : Pki) (d : Delivery) (target : Target) (addr : String) :
    (session p d target addr).1.target = target ∧ ((session p d target addr).1.mailFrom →
      ∃ caps, openSession p d target (d.remote addr) = .ok ((session p d target addr).1.tls, caps)) := by
  unfold session
  dsimp only
  split
  · exact ⟨rfl, fun h => nomatch h⟩
  · rename_i tls caps hopen
    split
    · exact ⟨rfl, fun h => nomatch h⟩
    · split
      · exact ⟨rfl, fun h => nomatch h⟩
      split
      · exact ⟨rfl, fun h => nomatch h⟩
      split
      · exact ⟨rfl, fun h => nomatch h⟩
      · exact ⟨rfl, fun _ => ⟨caps, hopen⟩⟩

theorem mem_tryAddrs {a : Attempt} {addrs : List String} (h : a ∈ (tryAddrs p d target addrs).1) :
    ∃ addr, a = (session p d target addr).1 := by
  induction addrs with
  | nil => cases h
  | cons addr addrs ih =>
    unfold tryAddrs at h
    dsimp only at h
    split at h
    · exact ⟨addr, List.mem_singleton.1 h⟩
    · rcases List.mem_cons.1 h with h | h
      · exact ⟨addr, h⟩
      · exact ih h

theorem mem_tryTargets {a : Attempt} {targets : List Target} (h : a ∈ tryTargets p d targets) :
    ∃ target ∈ targets, target.dane ≠ .bogus ∧ ∃ addr, a = (session p d target addr).1 := by
  induction targets with
  | nil => cases h
  | cons target targets ih =>
    unfold tryTargets at h
    split at h
    · obtain ⟨t, ht, hrest⟩ := ih h
      exact ⟨t, List.mem_cons_of_mem _ ht, hrest⟩
    · rename_i hbogus
      dsimp only at h
      split at h
      · exact ⟨target, List.mem_cons_self, hbogus, mem_tryAddrs h⟩
      · rcases List.mem_append.1 h with h | h
        · exact ⟨target, List.mem_cons_self, hbogus, mem_tryAddrs h⟩
        · obtain ⟨t, ht, hrest⟩ := ih h
          exact ⟨t, List.mem_cons_of_mem _ ht, hrest⟩

/-! ## 7. The run -/

/-- The policy a delivery has to follow: the one it fetched itself, or the last one that was fetched
for the domain, while it is kept and has not expired. -/
inductive InForce (x : Text) (s : Server) (d : Delivery) (policy : Policy) : Prop
  | fetched (h : (resolveTargets x s.cache d).2.2 = some policy)
  | kept (f : Fetch) (hno : (resolveTargets x s.cache d).2.2 = none)
      (hlast : (s.fetches.filter (·.domain = Sts.plainName d.domain)).getLast? = some f)
      (hpolicy : f.policy = policy) (hkept : f.kept) (hread : d.sts.readable)
      (hage : d.time < f.fetchedAt + policy.maxAge)

/-- **What a session with an MX host must meet** before it says MAIL FROM. -/
structure Protected (x : Text) (p : Pki) (s : Server) (d : Delivery) (a : Attempt) : Prop where
  /-- No answer of DNSSEC about the host is bogus. -/
  sound : Sound d a.target.host
  /-- Usable TLSA records: a certificate they match. -/
  dane : usableTlsa d a.target.host ≠ [] → ∃ h, a.tls = some h ∧
    verify p (usableTlsa d a.target.host) h.endEntity h.intermediates
      (daneNames p [a.target.host, d.domain])
  /-- Validated records of which none is usable: TLS, whatever the certificate. -/
  encrypted : validatedTlsa d a.target.host ≠ [] → a.tls.isSome
  /-- An enforced policy: a host it allows. -/
  allowed : ∀ policy, InForce x s d policy → policy.mode = .enforce → policy.allows a.target.host
  /-- An enforced policy, and no validated records: a certificate that is valid for the host. -/
  sts : ∀ policy, InForce x s d policy → policy.mode = .enforce → validatedTlsa d a.target.host = [] →
    ∃ h, a.tls = some h ∧ nameOf p a.target.host = some h.name ∧
      p.webpki p.systemRoots h.endEntity h.intermediates h.name

/-- The last policy fetched for a domain is the one that is kept, where the store took it. -/
def Kept (s : Server) : Prop :=
  ∀ domain f, (s.fetches.filter (·.domain = Sts.plainName domain)).getLast? = some f → f.kept →
    ∃ c, s.cache.find (Sts.plainName domain) = some c ∧ c.policy = f.policy ∧ c.fetchedAt = f.fetchedAt ∧
      c.maxAge = f.policy.maxAge

theorem sqlLower_idem (s : String) : Directory.sqlLower (Directory.sqlLower s) = Directory.sqlLower s := by
  simp only [Directory.sqlLower, String.toList_ofList, List.map_map]
  congr 1
  refine List.map_congr_left fun c _ => ?_
  exact Char.toLower_toLower_eq_toLower c

theorem plainName_lower (s : String) : Directory.sqlLower (Sts.plainName s) = Sts.plainName s :=
  sqlLower_idem _

/-- What a lookup leaves: the policies as they were, or the one it fetched among them. -/
theorem resolveTargets_snd (x : Text) (cache : Cache) (d : Delivery) :
    (resolveTargets x cache d).2 = (cache, none) ∨
      (resolveTargets x cache d).2 = (Sts.policyFor x cache d.domain d.sts).2 := by
  unfold resolveTargets
  split
  · split <;> exact .inl rfl
  split
  · exact .inl rfl
  · exact .inl rfl
  split
  · exact .inl rfl
  split
  · exact .inl rfl
  dsimp only
  split
  · exact .inl rfl
  split
  · exact .inl rfl
  · exact .inr rfl

theorem Kept.deliver (h : Kept s) (x : Text) (p : Pki) (d : Delivery) : Kept (deliver x p s d).1 := by
  have hcases : (resolveTargets x s.cache d).2 = (s.cache, none) ∨ ∃ policy,
      (resolveTargets x s.cache d).2 = (if d.sts.writable then s.cache.keep
        (Sts.cachedOf (Sts.plainName d.domain) (d.sts.txt.getD "") policy d.sts.fetchedAt) else s.cache,
        some policy) := by
    rcases resolveTargets_snd x s.cache d with heq | heq
    · exact .inl heq
    · rw [heq]
      cases hf : (Sts.policyFor x s.cache d.domain d.sts).2.2 with
      | none => exact .inl (Prod.ext (Sts.cache_of_not_fetched hf) hf)
      | some policy => exact .inr ⟨policy, Prod.ext (Sts.policyFor_of_fetched hf).2 hf⟩
  intro domain f hlast hkept
  simp only [Outbound.deliver] at hlast ⊢
  rcases hcases with heq | ⟨policy, heq⟩
  · rw [heq] at hlast ⊢
    exact h domain f (by simpa using hlast) hkept
  rw [heq] at hlast ⊢
  simp only [Option.map_some, Option.toList_some, List.filter_append] at hlast ⊢
  by_cases hdomain : Sts.plainName d.domain = Sts.plainName domain
  · -- The policy of this domain is the one that was just fetched.
    simp only [hdomain, List.filter_cons, decide_true, if_true, List.filter_nil,
      List.getLast?_concat, Option.some.injEq] at hlast
    subst hlast
    have hw : d.sts.writable = true := hkept
    refine ⟨{ Sts.cachedOf (Sts.plainName domain) (d.sts.txt.getD "") policy d.sts.fetchedAt with
      domain := Sts.plainName domain }, ?_, ?_, rfl, rfl⟩
    · rw [if_pos hw]
      simp [Sts.Cache.find, Sts.Cache.keep, Sts.cachedOf, plainName_lower, hdomain]
    · exact Sts.policy_cachedOf _ _ _ _
  · simp only [List.filter_cons, hdomain, decide_false, Bool.false_eq_true, if_false, List.filter_nil,
      List.append_nil] at hlast
    obtain ⟨c, hc, hrest⟩ := h domain f hlast hkept
    refine ⟨c, ?_, hrest⟩
    split
    · rw [Sts.Cache.find_keep_of_ne (by simpa [Sts.cachedOf, plainName_lower] using hdomain)]
      exact hc
    · exact hc

theorem kept_run (x : Text) (p : Pki) (ds : List Delivery) : Kept (runDeliveries x p ds) := by
  have hfold : ∀ s : Server, Kept s → Kept (ds.foldl (fun s d => (deliver x p s d).1) s) := by
    induction ds with
    | nil => exact fun _ h => h
    | cons d ds ih => exact fun s h => ih _ (h.deliver x p d)
  exact hfold {} fun _ _ hlast => nomatch hlast

/-- **A policy in force is the one that is followed.** -/
theorem policy_of_inForce {policy : Policy} (hkept : Kept s)
    (hsnd : (resolveTargets x s.cache d).2 = (Sts.policyFor x s.cache d.domain d.sts).2)
    (h : InForce x s d policy) : (Sts.policyFor x s.cache d.domain d.sts).1.policy = some policy := by
  cases h with
  | fetched h =>
    rw [hsnd] at h
    exact (Sts.policyFor_of_fetched h).1
  | kept f hno hlast hpolicy hf hread hage =>
    rw [hsnd] at hno
    obtain ⟨c, hc, hsame, hat, hmax⟩ := hkept d.domain f hlast hf
    have hvalid : c.expired d.sts.now = false := by
      have := d.now_le
      simp only [Sts.CachedPolicy.expired, decide_eq_false_iff_not]
      rw [hat, hmax, hpolicy]
      omega
    rw [Sts.policyFor_of_kept hread hc hvalid hno, hsame, hpolicy]

/-- How DANE applies to an MX host, as its records have it. -/
def daneOf (d : Delivery) (host : String) : Dane :=
  match validatedMx d.works d.checkedMx with
  | .secure _ => Dane.of (hostTlsa (d.tlsa host))
  | _ => .off

theorem sound_of_daneOf (hmx : validatedMx d.works d.checkedMx ≠ .bogus) (h : daneOf d host ≠ .bogus) :
    Sound d host := by
  unfold daneOf at h
  unfold Sound
  cases hv : validatedMx d.works d.checkedMx with
  | secure hosts =>
    intro hbogus
    simp [hv, hbogus, hostTlsa, Dane.of] at h
  | insecure => trivial
  | bogus => exact hmx hv

theorem daneOf_verify (h : usableTlsa d host ≠ []) : daneOf d host = .verify (usableTlsa d host) := by
  unfold usableTlsa validatedTlsa at h ⊢
  unfold daneOf
  cases hv : validatedMx d.works d.checkedMx with
  | secure hosts =>
    cases ht : d.tlsa host with
    | secure records =>
      simp only [hv, ht] at h ⊢
      have hsome : records ≠ [] := by
        rintro rfl
        exact h rfl
      simp [hostTlsa, Dane.of, hsome, h]
    | insecure => simp [hv, ht] at h
    | bogus => simp [hv, ht] at h
    | failed => simp [hv, ht] at h
  | insecure => simp [hv] at h
  | bogus => simp [hv] at h

theorem daneOf_applies (h : validatedTlsa d host ≠ []) : (daneOf d host).applies := by
  by_cases husable : usableTlsa d host = []
  · unfold usableTlsa validatedTlsa at *
    unfold daneOf
    cases hv : validatedMx d.works d.checkedMx with
    | secure hosts =>
      cases ht : d.tlsa host with
      | secure records =>
        simp only [hv, ht] at h husable ⊢
        simp [hostTlsa, Dane.of, h, husable, Dane.applies]
      | insecure => simp [hv, ht] at h
      | bogus => simp [hv, ht] at h
      | failed => simp [hv, ht] at h
    | insecure => simp [hv] at h
    | bogus => simp [hv] at h
  · rw [daneOf_verify husable]
    rfl

/-- **Only records that validate take the policy's place.** -/
theorem daneOf_off (hbogus : daneOf d host ≠ .bogus) (h : validatedTlsa d host = []) :
    daneOf d host = .off := by
  unfold validatedTlsa at h
  unfold daneOf at hbogus ⊢
  cases hv : validatedMx d.works d.checkedMx with
  | secure hosts =>
    cases ht : d.tlsa host with
    | secure records =>
      simp only [hv, ht] at h
      simp [hostTlsa, Dane.of, h]
    | insecure => rfl
    | bogus => simp [hv, ht, hostTlsa, Dane.of] at hbogus
    | failed => rfl
  | insecure => rfl
  | bogus => rfl

theorem tlsConfig_verify {records : List Tlsa} (hvia : target.via = .mx) (h : target.dane = .verify records) :
    tlsConfig p d target = .dane records (daneNames p [target.host, d.domain]) := by
  simp [tlsConfig, h, hvia]

theorem tlsConfig_verified (hvia : target.via = .mx) (hdane : target.dane = .off)
    (hverified : target.verifiedTls) : tlsConfig p d target = .verified := by
  simp [tlsConfig, hdane, hvia, hverified]

/-- **Mail that leaves does not fall back.**  In every sequence of deliveries, whatever DNS, the
policy hosts and the remote servers answer, a session with an MX host that says MAIL FROM is
protected by what its domain asks for. -/
theorem never_downgrades {ds : List Delivery} {d : Delivery} {a : Attempt}
    (ha : a ∈ (deliver x p (runDeliveries x p ds) d).2) (hvia : a.target.via = .mx) (hmail : a.mailFrom) :
    Protected x p (runDeliveries x p ds) d a := by
  have hkept := kept_run x p ds
  generalize runDeliveries x p ds = s at ha hkept ⊢
  simp only [deliver] at ha
  cases htargets : (resolveTargets x s.cache d).1 with
  | error outcome =>
    rw [htargets] at ha
    cases ha
  | ok targets =>
  rw [htargets] at ha
  obtain ⟨target, ht, hbogus, addr, rfl⟩ := mem_tryTargets ha
  obtain ⟨htarget, hopen⟩ := session_attempt p d target addr
  rw [htarget] at hvia
  obtain ⟨hsnd, hmx, heq, hallowed⟩ := resolveTargets_mx htargets ht hvia
  obtain ⟨caps, hopen⟩ := hopen hmail
  obtain ⟨hmust, hstands⟩ := openSession_mx hvia hopen
  have hdane : target.dane = daneOf d target.host := by
    rw [heq]
    rfl
  have happlies : target.dane.applies → (session p d target addr).1.tls.isSome := fun h =>
    hmust (by simp [h])
  rw [hdane] at hbogus
  have hpolicy : ∀ policy, InForce x s d policy → policy.mode = .enforce →
      policy ∈ (Sts.policyFor x s.cache d.domain d.sts).1.policy.filter (·.mode ≠ .none) := by
    intro policy hforce henforce
    rw [policy_of_inForce hkept hsnd hforce]
    simp [henforce]
  refine ⟨?_, fun husable => ?_, fun hrecords => ?_, fun policy hforce henforce => ?_,
    fun policy hforce henforce hnone => ?_⟩
  · rw [htarget]
    exact sound_of_daneOf hmx hbogus
  · rw [htarget] at husable ⊢
    have hverify : target.dane = .verify (usableTlsa d target.host) := hdane.trans (daneOf_verify husable)
    obtain ⟨hs, htls⟩ := Option.isSome_iff_exists.1 (happlies (by rw [hverify]; rfl))
    have hstand := hstands hs htls
    rw [tlsConfig_verify hvia hverify] at hstand
    exact ⟨hs, htls, hstand.accepts⟩
  · rw [htarget] at hrecords
    exact happlies (hdane ▸ daneOf_applies hrecords)
  · rw [htarget]
    exact hallowed policy (hpolicy policy hforce henforce) henforce
  · rw [htarget] at hnone ⊢
    have hoff : target.dane = .off := hdane.trans (daneOf_off hbogus hnone)
    have hverified : target.verifiedTls := by
      have hmem := hpolicy policy hforce henforce
      have hfield : target.verifiedTls = (((Sts.policyFor x s.cache d.domain d.sts).1.policy.filter
          (·.mode ≠ .none)).any (·.mode = .enforce) && !target.dane.applies) := by
        rw [heq]
        rfl
      rw [hfield, Option.mem_def.1 hmem, hoff]
      simp [henforce, Dane.applies]
    obtain ⟨hs, htls⟩ := Option.isSome_iff_exists.1 (hmust (by simp [hverified]))
    have hstand := hstands hs htls
    rw [tlsConfig_verified hvia hoff hverified] at hstand
    exact ⟨hs, htls, hstand.name, hstand.accepts⟩

/-- A server with a certificate that the web knows, and one that nobody does. -/
def plainPki : Pki where
  publicKeyInfo _ := none
  sha256 bytes := bytes
  sha512 bytes := bytes
  serverName name := some name
  systemRoots := [[1]]
  canRoot _ := true
  webpki roots endEntity _ name := roots == [[1]] && endEntity == [7] && name == "mx.example.net"

/-- An MX host that takes everything, with this certificate. -/
def plainRemote (cert : Cert) : Remote where
  connects := .ok ⟨⟩
  greeting := .ok { code := 220 }
  ehlo := .ok ({ code := 250 }, { starttls := true })
  helo := .ok { code := 250 }
  starttls := .ok { code := 220 }
  handshakes := true
  endEntity := cert
  intermediates := []
  ehloTls := .ok ({ code := 250 }, {})
  login := .ok { code := 235 }
  transaction := .ok [.delivered "250 OK"]

/-- Mail for `example.net`, with these answers about its policy and about its TLSA records. -/
def plainDelivery (sts : Sts.Answers) (tlsa : Checked Tlsa) (cert : Cert) : Delivery where
  domain := "example.net"
  returnPath := "mini@example.org"
  recipients := ["ora@example.net"]
  size := 100
  route := none
  senderRoute := .ok none
  relay := none
  requireTls := false
  allowPrivateMx := false
  lookup _ := []
  mx := .ok ["mx.example.net."]
  works := true
  checkedMx := .secure [(10, "mx.example.net.")]
  tlsa _ := tlsa
  sts
  ips _ := .ok ["192.0.2.25"]
  isPublic _ := true
  time := sts.now
  now_le := le_refl _
  remote _ := plainRemote cert

/-- The policy is announced and fetched. -/
def announced : Sts.Answers where
  now := 1000
  txt := some "1"
  fetched := .ok { contentType := "text/plain",
                   body := "version: STSv1\nmode: enforce\nmx: *.example.net\nmax_age: 86400\n" }
  fetchedAt := 1000

/-- An hour later neither the record nor the policy host can be had. -/
def unreachable : Sts.Answers where
  now := 4600
  txt := none
  fetched := .error "timed out"
  fetchedAt := 4600

/-- The server after a delivery under that policy. -/
def afterAnnounced : Server :=
  runDeliveries asciiText plainPki [plainDelivery announced .insecure [7]]

def enforced : Policy := ⟨.enforce, ["*.example.net"], 86400⟩

theorem enforced_later {tlsa : Checked Tlsa} {cert : Cert}
    (hno : (resolveTargets asciiText afterAnnounced.cache (plainDelivery unreachable tlsa cert)).2.2 = none) :
    InForce asciiText afterAnnounced (plainDelivery unreachable tlsa cert) enforced := by
  have hlast : (afterAnnounced.fetches.filter (·.domain = Sts.plainName "example.net")).getLast? =
      some ⟨"example.net", enforced, 1000, true⟩ := by
    decide +kernel
  have hage : (4600 : Int) < 1000 + enforced.maxAge := by decide
  exact .kept _ hno hlast rfl rfl rfl hage

/-- A policy that cannot be had any more is followed: the host's certificate is checked. -/
theorem a_kept_policy_protects : InForce asciiText afterAnnounced
    (plainDelivery unreachable .insecure [7]) enforced ∧
      ∃ a ∈ (deliver asciiText plainPki afterAnnounced (plainDelivery unreachable .insecure [7])).2,
        a.mailFrom ∧ Protected asciiText plainPki afterAnnounced
          (plainDelivery unreachable .insecure [7]) a := by
  have hsome : (deliver asciiText plainPki afterAnnounced (plainDelivery unreachable .insecure [7])).2.any
      fun a => decide (a.target.via = .mx) && a.mailFrom := by
    decide +kernel
  obtain ⟨a, ha, hfacts⟩ := List.any_eq_true.1 hsome
  obtain ⟨hvia, hmail⟩ := Bool.and_eq_true_iff.1 hfacts
  exact ⟨enforced_later (by decide +kernel), a, ha, hmail,
    never_downgrades ha (of_decide_eq_true hvia) hmail⟩

/-- The domain's policy is enforced, and its host has a validated TLSA record of a usage that is not
for mail: the session is encrypted, and MAIL FROM is said to a certificate nobody vouches for. -/
theorem an_unusable_record_takes_the_policy_away : ¬∀ (x : Text) (p : Pki) (ds : List Delivery)
    (d : Delivery) (a : Attempt), a ∈ (deliver x p (runDeliveries x p ds) d).2 → a.target.via = .mx →
      a.mailFrom → usableTlsa d a.target.host = [] →
        ∀ policy, InForce x (runDeliveries x p ds) d policy → policy.mode = .enforce →
          ∃ h, a.tls = some h ∧ p.webpki p.systemRoots h.endEntity h.intermediates h.name := by
  intro hall
  have hbad : (deliver asciiText plainPki afterAnnounced
      (plainDelivery unreachable (.secure [⟨1, 1, 1, [7]⟩]) [8])).2.any fun a =>
        decide (a.target.via = .mx) && a.mailFrom &&
          decide (usableTlsa (plainDelivery unreachable (.secure [⟨1, 1, 1, [7]⟩]) [8]) a.target.host = []) &&
          a.tls.all fun h => !plainPki.webpki plainPki.systemRoots h.endEntity h.intermediates h.name := by
    decide +kernel
  obtain ⟨a, ha, hfacts⟩ := List.any_eq_true.1 hbad
  simp only [Bool.and_eq_true, decide_eq_true_eq] at hfacts
  obtain ⟨⟨⟨hvia, hmail⟩, husable⟩, hnot⟩ := hfacts
  obtain ⟨h, htls, hvalid⟩ := hall asciiText plainPki
    [plainDelivery announced .insecure [7]] _ a ha hvia hmail
    husable enforced (enforced_later (by decide +kernel)) rfl
  simp [htls, hvalid] at hnot

end UwuMail.Smtp.Outbound
