/-
# The login limiter

`AuthLimiter` counts wrong passwords per network and per login, and password checks that are still
running.  `begin` looks at the failures, at the login and at the running checks under THREE locks,
one after the other, and the callers end a try in three steps as well: the check ends, the attempt
is dropped, the failure is recorded.  Every lock section is a step of its own here, and any number
of connections take theirs in any order.

In every run the number of checks in flight is the number of live attempts (§5).  A wrong password
whose attempt is dropped and whose failure is not recorded yet (or was recorded after `begin` read
the failures) is counted NOWHERE, so more than `maxFailures` wrong passwords can be checked; where
no place is given away at such a moment, the bound holds (§6).
-/
import UwuMail.Lib.Trace
import UwuMail.Lib.Dict

namespace UwuMail.Limiter

open Trace

/-! ## 1. Networks and counts -/

/-- An IP address, as its bits. -/
inductive IpAddr where
  | v4 (bits : BitVec 32)
  | v6 (bits : BitVec 128)
  deriving DecidableEq

/-- An IPv4-mapped address (`::ffff:a.b.c.d`) is the IPv4 address it stands for. -/
def IpAddr.toCanonical : IpAddr → IpAddr
  | .v4 bits => .v4 bits
  | .v6 bits => if bits >>> 32 = 0xffff#128 then .v4 (bits.setWidth 32) else .v6 bits

/-- The network an address is counted under: an IPv6 address under its /64. -/
def key (ip : IpAddr) : IpAddr :=
  match ip.toCanonical with
  | .v4 bits => .v4 bits
  | .v6 bits => .v6 ((bits >>> 64) <<< 64)

/-- A second; times are nanoseconds since the server started. -/
def second : Nat := 1000000000

def window : Nat := 15 * 60 * second

def maxFailures : Nat := 10

def maxUnknown : Nat := 3

def accountFreeFailures : Nat := 10

def accountSpacing : Nat := 30 * second

def loginsPerNetwork : Nat := 16

def maxEntries : Nat := 100000

/-- What a network has been up to in this window. -/
structure Failures where
  wrong : Nat := 0
  unknown : Nat := 0
  byLogin : Dict String Nat := ∅

def Failures.overTheLine (f : Failures) : Bool :=
  decide (maxFailures ≤ f.wrong) || decide (maxUnknown ≤ f.unknown)

/-- What a failed try was. -/
inductive Tried where
  | unknown
  | wrong (login : Option String)

structure AccountFailures where
  count : Nat
  last : Nat

/-- Password checks under way, per network and per login. -/
structure InFlight where
  networks : Dict IpAddr Nat := ∅
  logins : Dict String Nat := ∅

/-- The limiter: the failures of each network with the start of their window, those of each login,
the checks under way, until when networks are kept out, and the addresses that never are. -/
structure AuthLimiter where
  failures : Dict IpAddr (Failures × Nat) := ∅
  accounts : Dict String AccountFailures := ∅
  inFlight : InFlight := {}
  blocks : Dict IpAddr Nat := ∅
  isExempt : IpAddr → Bool := fun _ => false

def AuthLimiter.keptOut (l : AuthLimiter) (now : Nat) (ip : IpAddr) : Bool :=
  match l.blocks.lookup (key ip) with
  | some untilTime => decide (now < untilTime)
  | none => false

/-- How many of a map's things are under the key; a missing key has none. -/
def Dict.count {κ : Type} [DecidableEq κ] (m : Dict κ Nat) (k : κ) : Nat := (m.lookup k).getD 0

/-! ## 2. `begin`, one lock after the other -/

/-- The first lock: what the network had wrong in its window, or `none` when it is over the line. -/
def AuthLimiter.beginFailures (l : AuthLimiter) (now : Nat) (network : IpAddr) (exempt : Bool) :
    AuthLimiter × Option Nat :=
  match l.failures.lookup network with
  | some (counted, since) =>
    if window < now - since then ({ l with failures := l.failures.erase network }, some 0)
    else if counted.overTheLine && !exempt then (l, none)
    else (l, some counted.wrong)
  | none => (l, some 0)

/-- The second lock: the login's failures and the last one. -/
def AuthLimiter.beginAccount (l : AuthLimiter) (now : Nat) (login : String) :
    AuthLimiter × Nat × Option Nat :=
  match l.accounts.lookup login with
  | some account =>
    if window < now - account.last then ({ l with accounts := l.accounts.erase login }, 0, none)
    else (l, account.count, some account.last)
  | none => (l, 0, none)

/-- The third lock: a place among the checks under way, or `none`. -/
def AuthLimiter.beginInFlight (l : AuthLimiter) (now : Nat) (network : IpAddr) (login : String)
    (exempt : Bool) (wrong count : Nat) (last : Option Nat) : Option AuthLimiter :=
  let fromNetwork := Dict.count l.inFlight.networks network
  let forLogin := Dict.count l.inFlight.logins login
  if !exempt && decide (maxFailures ≤ wrong + fromNetwork) then none
  else if decide (accountFreeFailures ≤ count + forLogin) &&
      (decide (0 < forLogin) || last.any fun last => decide (now - last < accountSpacing)) then none
  else some { l with inFlight :=
    { networks := l.inFlight.networks.insert network (fromNetwork + 1)
      logins := l.inFlight.logins.insert login (forLogin + 1) } }

/-- One fewer; the last one takes its entry with it. -/
def takeOne {κ : Type} [DecidableEq κ] (m : Dict κ Nat) (k : κ) : Dict κ Nat :=
  match m.lookup k with
  | some count => if count - 1 = 0 then m.erase k else m.insert k (count - 1)
  | none => m

/-- `Attempt::drop` -/
def AuthLimiter.dropAttempt (l : AuthLimiter) (network : IpAddr) (login : String) : AuthLimiter :=
  { l with inFlight :=
    { networks := takeOne l.inFlight.networks network, logins := takeOne l.inFlight.logins login } }

/-! ## 3. Recording how a check went -/

/-- The first lock of `record_failure`: one more for the login, wherever it came from. -/
def AuthLimiter.recordAccount (l : AuthLimiter) (now : Nat) (login : String) : AuthLimiter :=
  let accounts := if maxEntries < l.accounts.entries.length
    then l.accounts.retain fun _ account => decide (now - account.last ≤ window) else l.accounts
  let account := (accounts.lookup login).getD ⟨0, now⟩
  let count := if window < now - account.last then 0 else account.count
  { l with accounts := accounts.insert login ⟨count + 1, now⟩ }

/-- A failure of the kind `tried`. -/
def Failures.add (f : Failures) : Tried → Failures
  | .unknown => { f with unknown := f.unknown + 1 }
  | .wrong none => { f with wrong := f.wrong + 1 }
  | .wrong (some login) =>
    match f.byLogin.lookup login with
    | some own => { f with wrong := f.wrong + 1, byLogin := f.byLogin.insert login (own + 1) }
    | none =>
      if f.byLogin.entries.length < loginsPerNetwork then
        { f with wrong := f.wrong + 1, byLogin := f.byLogin.insert login 1 }
      else { f with wrong := f.wrong + 1 }

/-- `record`: one more for the network, in a new window when the old one is over. -/
def AuthLimiter.record (l : AuthLimiter) (now : Nat) (ip : IpAddr) (tried : Tried) :
    AuthLimiter :=
  if l.isExempt ip then l
  else
    let failures := if maxEntries < l.failures.entries.length
      then l.failures.retain fun _ entry => decide (now - entry.2 ≤ window) else l.failures
    let entry := (failures.lookup (key ip)).getD ({}, now)
    let entry := if window < now - entry.2 then ({}, now) else entry
    { l with failures := failures.insert (key ip) (entry.1.add tried, entry.2) }

/-- The first lock of `record_success_of`. -/
def AuthLimiter.forgiveAccount (l : AuthLimiter) (login : String) : AuthLimiter :=
  { l with accounts := l.accounts.erase login }

/-- The second: the login's own mistakes on that network are taken back. -/
def AuthLimiter.forgiveNetwork (l : AuthLimiter) (ip : IpAddr) (login : String) : AuthLimiter :=
  match l.failures.lookup (key ip) with
  | some (counted, since) =>
    match counted.byLogin.lookup login with
    | some own =>
      let counted := { counted with
        wrong := counted.wrong - own, byLogin := counted.byLogin.erase login }
      { l with failures := l.failures.insert (key ip) (counted, since) }
    | none => l
  | none => l

/-! ## 4. Connections -/

/-- Where a call of `begin` has got to.  `readAt` is the number of the step that read the failures;
the code does not keep it. -/
inductive Phase where
  | begun
  | counted (wrong readAt : Nat)
  | looked (wrong readAt count : Nat) (last : Option Nat)
  | over

/-- A call of `begin`.  `login` is the login the way it is counted (`login_key`). -/
structure Begin where
  ip : IpAddr
  login : String
  exempt : Bool
  phase : Phase := .begun

/-- A password check that `begin` let through: whether its `Attempt` still lives, how the check
ended, whether its login has the failure and in which step its network got it. -/
structure Try where
  ip : IpAddr
  login : String
  live : Bool := true
  ended : Option Bool := none
  noted : Bool := false
  recorded : Option Nat := none

/-- The limiter, the clock, the calls of `begin` and the tries there ever were.  `steps` numbers the
steps of the run. -/
structure Sys where
  limiter : AuthLimiter
  clock : Nat
  steps : Nat := 0
  calls : List Begin := []
  tries : List Try := []

inductive Event where
  | tick (d : Nat)
  | block (ip : IpAddr) (untilTime : Nat)
  | begin (ip : IpAddr) (login : String)
  | beginFailures (i : Nat)
  | beginAccount (i : Nat)
  | beginInFlight (i : Nat)
  | endCheck (i : Nat) (right : Bool)
  | drop (i : Nat)
  | recordAccount (i : Nat)
  | record (i : Nat)
  | forgiveAccount (i : Nat)
  | forgiveNetwork (i : Nat)

/-- One lock section, or the clock. -/
def Sys.act (s : Sys) : Event → Option Sys
  | .tick d => some { s with clock := s.clock + d }
  | .block ip untilTime =>
    some { s with limiter := { s.limiter with
      blocks := s.limiter.blocks.insert (key ip) untilTime } }
  | .begin ip login =>
    if !s.limiter.isExempt ip && s.limiter.keptOut s.clock ip then some s
    else some { s with calls := s.calls ++ [⟨ip, login, s.limiter.isExempt ip, .begun⟩] }
  | .beginFailures i =>
    match s.calls[i]? with
    | some ⟨ip, login, exempt, .begun⟩ =>
      match s.limiter.beginFailures s.clock (key ip) exempt with
      | (l, some wrong) => some { s with
          limiter := l, calls := s.calls.set i ⟨ip, login, exempt, .counted wrong s.steps⟩ }
      | (l, none) => some { s with limiter := l, calls := s.calls.set i ⟨ip, login, exempt, .over⟩ }
    | _ => none
  | .beginAccount i =>
    match s.calls[i]? with
    | some ⟨ip, login, exempt, .counted wrong readAt⟩ =>
      match s.limiter.beginAccount s.clock login with
      | (l, count, last) => some { s with
          limiter := l, calls := s.calls.set i ⟨ip, login, exempt, .looked wrong readAt count last⟩ }
    | _ => none
  | .beginInFlight i =>
    match s.calls[i]? with
    | some ⟨ip, login, exempt, .looked wrong _ count last⟩ =>
      match s.limiter.beginInFlight s.clock (key ip) login exempt wrong count last with
      | some l => some { s with
          limiter := l, calls := s.calls.set i ⟨ip, login, exempt, .over⟩
          tries := s.tries ++ [{ ip := ip, login := login }] }
      | none => some { s with calls := s.calls.set i ⟨ip, login, exempt, .over⟩ }
    | _ => none
  | .endCheck i right =>
    match s.tries[i]? with
    | some t =>
      if t.live && t.ended.isNone then
        some { s with tries := s.tries.set i { t with ended := some right } }
      else none
    | none => none
  | .drop i =>
    match s.tries[i]? with
    | some t =>
      if t.live then some { s with
        limiter := s.limiter.dropAttempt (key t.ip) t.login
        tries := s.tries.set i { t with live := false } }
      else none
    | none => none
  | .recordAccount i =>
    match s.tries[i]? with
    | some t =>
      if t.ended = some false ∧ t.noted = false then some { s with
        limiter := s.limiter.recordAccount s.clock t.login
        tries := s.tries.set i { t with noted := true } }
      else none
    | none => none
  | .record i =>
    match s.tries[i]? with
    | some t =>
      if t.noted = true ∧ t.recorded = none then some { s with
        limiter := s.limiter.record s.clock t.ip (.wrong (some t.login))
        tries := s.tries.set i { t with recorded := some s.steps } }
      else none
    | none => none
  | .forgiveAccount i =>
    match s.tries[i]? with
    | some t => if t.ended = some true then some { s with
        limiter := s.limiter.forgiveAccount t.login } else none
    | none => none
  | .forgiveNetwork i =>
    match s.tries[i]? with
    | some t => if t.ended = some true then some { s with
        limiter := s.limiter.forgiveNetwork t.ip t.login } else none
    | none => none

/-- One step of one party. -/
def step (s : Sys) (e : Event) : Option Sys :=
  (s.act e).map fun s' => { s' with steps := s.steps + 1 }

/-- Live attempts of a network. -/
def Sys.liveFrom (s : Sys) (network : IpAddr) : Nat :=
  s.tries.countP fun t => t.live && decide (key t.ip = network)

/-- Wrong passwords from a network that were checked. -/
def Sys.wrongFrom (s : Sys) (network : IpAddr) : Nat :=
  s.tries.countP fun t => decide (t.ended = some false) && decide (key t.ip = network)

variable {s s' : Sys} {e : Event}

theorem step_eq_some :
    step s e = some s' ↔ ∃ u, s.act e = some u ∧ s' = { u with steps := s.steps + 1 } := by
  simp [step, eq_comm]

/-- What a step can do, case by case. -/
inductive Acted (s : Sys) : Event → Sys → Prop
  | ticked (d : Nat) : Acted s (.tick d) { s with clock := s.clock + d }
  | blocked (ip : IpAddr) (untilTime : Nat) : Acted s (.block ip untilTime)
      { s with limiter := { s.limiter with blocks := s.limiter.blocks.insert (key ip) untilTime } }
  | turnedAway (ip : IpAddr) (login : String) : Acted s (.begin ip login) s
  | begun (ip : IpAddr) (login : String) : Acted s (.begin ip login)
      { s with calls := s.calls ++ [⟨ip, login, s.limiter.isExempt ip, .begun⟩] }
  | counted {i : Nat} {ip : IpAddr} {login : String} {exempt : Bool} {l : AuthLimiter} {wrong : Nat}
      (hc : s.calls[i]? = some ⟨ip, login, exempt, .begun⟩)
      (hl : s.limiter.beginFailures s.clock (key ip) exempt = (l, some wrong)) :
      Acted s (.beginFailures i)
        { s with limiter := l, calls := s.calls.set i ⟨ip, login, exempt, .counted wrong s.steps⟩ }
  | overTheLine {i : Nat} {ip : IpAddr} {login : String} {exempt : Bool} {l : AuthLimiter}
      (hc : s.calls[i]? = some ⟨ip, login, exempt, .begun⟩)
      (hl : s.limiter.beginFailures s.clock (key ip) exempt = (l, none)) :
      Acted s (.beginFailures i)
        { s with limiter := l, calls := s.calls.set i ⟨ip, login, exempt, .over⟩ }
  | looked {i : Nat} {ip : IpAddr} {login : String} {exempt : Bool} {wrong readAt count : Nat}
      {last : Option Nat} {l : AuthLimiter}
      (hc : s.calls[i]? = some ⟨ip, login, exempt, .counted wrong readAt⟩)
      (hl : s.limiter.beginAccount s.clock login = (l, count, last)) :
      Acted s (.beginAccount i) { s with
        limiter := l, calls := s.calls.set i ⟨ip, login, exempt, .looked wrong readAt count last⟩ }
  | reserved {i : Nat} {ip : IpAddr} {login : String} {exempt : Bool} {wrong readAt count : Nat}
      {last : Option Nat} {l : AuthLimiter}
      (hc : s.calls[i]? = some ⟨ip, login, exempt, .looked wrong readAt count last⟩)
      (hl : s.limiter.beginInFlight s.clock (key ip) login exempt wrong count last = some l) :
      Acted s (.beginInFlight i) { s with
        limiter := l, calls := s.calls.set i ⟨ip, login, exempt, .over⟩
        tries := s.tries ++ [{ ip := ip, login := login }] }
  | full {i : Nat} {ip : IpAddr} {login : String} {exempt : Bool} {wrong readAt count : Nat}
      {last : Option Nat}
      (hc : s.calls[i]? = some ⟨ip, login, exempt, .looked wrong readAt count last⟩) :
      Acted s (.beginInFlight i) { s with calls := s.calls.set i ⟨ip, login, exempt, .over⟩ }
  | ended {i : Nat} {t : Try} (right : Bool) (ht : s.tries[i]? = some t) (hlive : t.live = true)
      (hended : t.ended = none) :
      Acted s (.endCheck i right) { s with tries := s.tries.set i { t with ended := some right } }
  | dropped {i : Nat} {t : Try} (ht : s.tries[i]? = some t) (hlive : t.live = true) :
      Acted s (.drop i) { s with
        limiter := s.limiter.dropAttempt (key t.ip) t.login
        tries := s.tries.set i { t with live := false } }
  | noted {i : Nat} {t : Try} (ht : s.tries[i]? = some t) (hended : t.ended = some false) :
      Acted s (.recordAccount i) { s with
        limiter := s.limiter.recordAccount s.clock t.login
        tries := s.tries.set i { t with noted := true } }
  | recorded {i : Nat} {t : Try} (ht : s.tries[i]? = some t) (hnoted : t.noted = true)
      (hrecorded : t.recorded = none) :
      Acted s (.record i) { s with
        limiter := s.limiter.record s.clock t.ip (.wrong (some t.login))
        tries := s.tries.set i { t with recorded := some s.steps } }
  | forgaveAccount (i : Nat) (login : String) :
      Acted s (.forgiveAccount i) { s with limiter := s.limiter.forgiveAccount login }
  | forgaveNetwork (i : Nat) (ip : IpAddr) (login : String) :
      Acted s (.forgiveNetwork i) { s with limiter := s.limiter.forgiveNetwork ip login }

theorem Acted.of_act {s u : Sys} (h : s.act e = some u) : Acted s e u := by
  cases e with
  | tick d => cases h; exact .ticked d
  | block ip untilTime => cases h; exact .blocked ip untilTime
  | begin ip login =>
    simp only [Sys.act] at h
    split at h
    · cases h; exact .turnedAway ip login
    · cases h; exact .begun ip login
  | beginFailures i =>
    simp only [Sys.act] at h
    split at h
    · next hc =>
      split at h
      · next hl => cases h; exact .counted hc hl
      · next hl => cases h; exact .overTheLine hc hl
    · cases h
  | beginAccount i =>
    simp only [Sys.act] at h
    split at h
    · next hc => cases h; exact .looked hc rfl
    · cases h
  | beginInFlight i =>
    simp only [Sys.act] at h
    split at h
    · next hc =>
      split at h
      · next hl => cases h; exact .reserved hc hl
      · cases h; exact .full hc
    · cases h
  | endCheck i right =>
    simp only [Sys.act] at h
    split at h
    · next ht =>
      split at h
      · next hp =>
        simp only [Bool.and_eq_true, Option.isNone_iff_eq_none] at hp
        cases h
        exact .ended right ht hp.1 hp.2
      · cases h
    · cases h
  | drop i =>
    simp only [Sys.act] at h
    split at h
    · next ht =>
      split at h
      · next hp => cases h; exact .dropped ht hp
      · cases h
    · cases h
  | recordAccount i =>
    simp only [Sys.act] at h
    split at h
    · next ht =>
      split at h
      · next hp => cases h; exact .noted ht hp.1
      · cases h
    · cases h
  | record i =>
    simp only [Sys.act] at h
    split at h
    · next ht =>
      split at h
      · next hp => cases h; exact .recorded ht hp.1 hp.2
      · cases h
    · cases h
  | forgiveAccount i =>
    simp only [Sys.act] at h
    split at h
    · split at h
      · cases h; exact .forgaveAccount i _
      · cases h
    · cases h
  | forgiveNetwork i =>
    simp only [Sys.act] at h
    split at h
    · split at h
      · cases h; exact .forgaveNetwork i _ _
      · cases h
    · cases h

/-! ## 5. The checks in flight are the live attempts -/

section InFlight

variable {κ : Type} [DecidableEq κ] {m : Dict κ Nat} {k k' : κ}

theorem count_insert (v : Nat) : Dict.count (m.insert k v) k' = if k' = k then v else Dict.count m k' := by
  unfold Dict.count
  split
  · next h => subst h; rw [AList.lookup_insert]; rfl
  · next h => rw [AList.lookup_insert_ne h]

theorem count_erase : Dict.count (m.erase k) k' = if k' = k then 0 else Dict.count m k' := by
  unfold Dict.count
  split
  · next h => subst h; rw [AList.lookup_erase]; rfl
  · next h => rw [AList.lookup_erase_ne h]

theorem count_takeOne : Dict.count (takeOne m k) k' = Dict.count m k' - if k' = k then 1 else 0 := by
  unfold takeOne
  split
  · next count h =>
    have hk : Dict.count m k = count := by simp [Dict.count, h]
    split
    · rw [count_erase]
      split <;> simp_all
    · rw [count_insert]
      split <;> simp_all
  · next h =>
    have hk : Dict.count m k = 0 := by simp [Dict.count, h]
    split <;> simp_all

end InFlight

/-- Every network's count is the number of its live attempts. -/
def InFlightOk (s : Sys) : Prop :=
  ∀ network, Dict.count s.limiter.inFlight.networks network = s.liveFrom network

/-- A step that leaves the counts alone and whether each try lives. -/
theorem InFlightOk.of_eq (h : InFlightOk s)
    (hcount : s'.limiter.inFlight = s.limiter.inFlight)
    (hlive : ∀ network, s'.liveFrom network = s.liveFrom network) : InFlightOk s' := by
  intro network
  rw [hcount, hlive]
  exact h network

/-- What the first lock of `begin` does: it sweeps out a window that is over, or only reads. -/
theorem beginFailures_eq {l l' : AuthLimiter} {now : Nat} {network : IpAddr} {exempt : Bool}
    {r : Option Nat} (h : l.beginFailures now network exempt = (l', r)) :
    l'.inFlight = l.inFlight ∧ l'.isExempt = l.isExempt ∧
      ((∃ counted since, l.failures.lookup network = some (counted, since) ∧
          window < now - since ∧ l'.failures = l.failures.erase network ∧ r = some 0) ∨
        (l' = l ∧ l.failures.lookup network = none ∧ r = some 0) ∨
        (l' = l ∧ ∃ counted since, l.failures.lookup network = some (counted, since) ∧
          now - since ≤ window ∧ ∀ wrong ∈ r, wrong = counted.wrong)) := by
  unfold AuthLimiter.beginFailures at h
  split at h
  · next counted since hlookup =>
    split at h
    · next hover =>
      cases h
      exact ⟨rfl, rfl, .inl ⟨counted, since, hlookup, hover, rfl, rfl⟩⟩
    · next hover =>
      split at h
      · cases h
        exact ⟨rfl, rfl, Or.inr (Or.inr ⟨rfl, counted, since, hlookup, not_lt.1 hover, by simp⟩)⟩
      · cases h
        exact ⟨rfl, rfl, Or.inr (Or.inr ⟨rfl, counted, since, hlookup, not_lt.1 hover, by simp⟩)⟩
  · next hlookup =>
    cases h
    exact ⟨rfl, rfl, .inr (.inl ⟨rfl, hlookup, rfl⟩)⟩

/-- The second lock only touches the logins. -/
theorem beginAccount_eq {l l' : AuthLimiter} {now : Nat} {login : String} {count : Nat}
    {last : Option Nat} (h : l.beginAccount now login = (l', count, last)) :
    l'.inFlight = l.inFlight ∧ l'.isExempt = l.isExempt ∧ l'.failures = l.failures := by
  unfold AuthLimiter.beginAccount at h
  split at h
  · split at h <;> cases h <;> exact ⟨rfl, rfl, rfl⟩
  · cases h
    exact ⟨rfl, rfl, rfl⟩

theorem record_inFlight (l : AuthLimiter) (now : Nat) (ip : IpAddr) (tried : Tried) :
    (l.record now ip tried).inFlight = l.inFlight := by
  unfold AuthLimiter.record
  split <;> rfl

theorem forgiveNetwork_inFlight (l : AuthLimiter) (ip : IpAddr) (login : String) :
    (l.forgiveNetwork ip login).inFlight = l.inFlight := by
  unfold AuthLimiter.forgiveNetwork
  split
  · split <;> rfl
  · rfl

/-- What the third lock of `begin` does when it gives a place away. -/
theorem beginInFlight_eq_some {l l' : AuthLimiter} {now : Nat} {network : IpAddr} {login : String}
    {exempt : Bool} {wrong count : Nat} {last : Option Nat}
    (h : l.beginInFlight now network login exempt wrong count last = some l') :
    (exempt = false → wrong + Dict.count l.inFlight.networks network < maxFailures) ∧
      l'.inFlight.networks =
        l.inFlight.networks.insert network (Dict.count l.inFlight.networks network + 1) ∧
      l'.failures = l.failures ∧ l'.isExempt = l.isExempt := by
  unfold AuthLimiter.beginInFlight at h
  dsimp only at h
  split at h
  · cases h
  · next hroom =>
    split at h
    · cases h
    · cases h
      refine ⟨?_, rfl, rfl, rfl⟩
      intro hexempt
      simpa [hexempt] using hroom

theorem InFlightOk.step (h : InFlightOk s) (hs : step s e = some s') :
    InFlightOk s' := by
  obtain ⟨u, hu, rfl⟩ := step_eq_some.1 hs
  refine InFlightOk.of_eq (s := u) ?_ rfl fun _ => rfl
  cases Acted.of_act hu with
  | ticked d => exact h
  | blocked ip untilTime => exact h
  | turnedAway ip login => exact h
  | begun ip login => exact h
  | counted hc hl => exact h.of_eq (beginFailures_eq hl).1 fun _ => rfl
  | overTheLine hc hl => exact h.of_eq (beginFailures_eq hl).1 fun _ => rfl
  | looked hc hl => exact h.of_eq (beginAccount_eq hl).1 fun _ => rfl
  | @reserved i ip login exempt wrong readAt count last l hc hl =>
    obtain ⟨-, hnet, -, -⟩ := beginInFlight_eq_some hl
    intro network
    show Dict.count l.inFlight.networks network = _
    rw [hnet, count_insert]
    simp only [Sys.liveFrom, List.countP_append, List.countP_singleton, Bool.true_and]
    split
    · next hn => subst hn; simp [h (key ip), Sys.liveFrom]
    · next hn => simp [Ne.symm hn, h network, Sys.liveFrom]
  | full hc => exact h
  | ended right ht hlive hended => exact h.of_eq rfl fun _ => countP_set_same ht rfl
  | @dropped i t ht hlive =>
    intro network
    have hcount := countP_set_add (b := { t with live := false })
      (fun t => t.live && decide (key t.ip = network)) ht
    show Dict.count (takeOne _ _) network = _
    rw [count_takeOne, h network]
    simp only [Sys.liveFrom] at hcount ⊢
    by_cases hn : network = key t.ip
    · subst hn
      simp [hlive, Bool.toNat] at hcount ⊢
      omega
    · simp [hlive, Bool.toNat, Ne.symm hn, hn] at hcount ⊢
      omega
  | noted ht hended => exact h.of_eq rfl fun _ => countP_set_same ht rfl
  | recorded ht hnoted hrecorded =>
    exact h.of_eq (record_inFlight ..) fun _ => countP_set_same ht rfl
  | forgaveAccount i login => exact h
  | forgaveNetwork i ip login => exact h.of_eq (forgiveNetwork_inFlight ..) fun _ => rfl

/-! ## 6. Counting wrong passwords -/

/-- What a call of `begin` has read of the failures, and in which step. -/
def Phase.read : Phase → Option (Nat × Nat)
  | .begun => none
  | .counted wrong readAt => some (wrong, readAt)
  | .looked wrong readAt _ _ => some (wrong, readAt)
  | .over => none

/-- **No wrong password is between two counts when a place is given away**: every wrong check of the
network whose attempt has been dropped was recorded before this `begin` read the failures. -/
def Covered (s : Sys) : Event → Prop
  | .beginInFlight i => ∀ c ∈ s.calls[i]?, ∀ r ∈ c.phase.read, ∀ t ∈ s.tries,
      key t.ip = key c.ip → t.ended = some false → t.live = false →
        t.recorded.any (fun k => decide (k < r.2)) = true
  | _ => True

instance (s : Sys) : (e : Event) → Decidable (Covered s e)
  | .beginInFlight i => inferInstanceAs (Decidable (∀ c ∈ s.calls[i]?, ∀ r ∈ c.phase.read,
      ∀ t ∈ s.tries, key t.ip = key c.ip → t.ended = some false → t.live = false →
        t.recorded.any (fun k => decide (k < r.2)) = true))
  | .tick _ | .block _ _ | .begin _ _ | .beginFailures _ | .beginAccount _ | .endCheck _ _ | .drop _
  | .recordAccount _ | .record _ | .forgiveAccount _ | .forgiveNetwork _ => isTrue trivial

/-- Guessing: nobody gets in, so no mistake is forgiven. -/
def Event.guessing : Event → Bool
  | .forgiveAccount _ => false
  | .forgiveNetwork _ => false
  | _ => true

/-- Nothing from the network is under way: no call of `begin`, every attempt dropped and every
failure recorded; and the window of what was recorded is over. -/
structure Settled (network : IpAddr) (s : Sys) : Prop where
  calls : ∀ c ∈ s.calls, key c.ip = network → c.phase = .over
  tries : ∀ t ∈ s.tries, key t.ip = network →
    t.live = false ∧ (t.ended = some false → t.recorded.isSome = true)
  window : ∀ f since, s.limiter.failures.lookup network = some (f, since) →
    window < s.clock - since

/-- Checks from a network that have not ended. -/
def Sys.runningFrom (s : Sys) (network : IpAddr) : Nat :=
  s.tries.countP fun t => t.live && t.ended.isNone && decide (key t.ip = network)

/-- Failures of a network that were recorded before the step `k`. -/
def Sys.recordedFrom (s : Sys) (network : IpAddr) (k : Nat) : Nat :=
  s.tries.countP fun t => t.recorded.any (fun j => decide (j < k)) && decide (key t.ip = network)

/-- The wrong passwords the limiter holds against a network, of windows that began at `start`. -/
def AuthLimiter.wrongSince (l : AuthLimiter) (start : Nat) (network : IpAddr) : Nat :=
  match l.failures.lookup network with
  | some (counted, since) => if start ≤ since then counted.wrong else 0
  | none => 0

/-- The window the limiter holds for the network began after `start`, or was over then. -/
def AuthLimiter.Windowed (l : AuthLimiter) (start : Nat) (network : IpAddr) : Prop :=
  ∀ f since, l.failures.lookup network = some (f, since) → start ≤ since ∨ window < start - since

/-- What holds of calls and tries in every run. -/
structure Sane (s : Sys) : Prop where
  exempt : ∀ c ∈ s.calls, c.exempt = s.limiter.isExempt c.ip
  noted : ∀ t ∈ s.tries, t.noted = true → t.ended = some false
  recorded : ∀ t ∈ s.tries, ∀ k ∈ t.recorded, t.noted = true ∧ k < s.steps

theorem step_isExempt (hs : step s e = some s') :
    s'.limiter.isExempt = s.limiter.isExempt := by
  obtain ⟨u, hu, rfl⟩ := step_eq_some.1 hs
  cases Acted.of_act hu with
  | counted hc hl => exact (beginFailures_eq hl).2.1
  | overTheLine hc hl => exact (beginFailures_eq hl).2.1
  | looked hc hl => exact (beginAccount_eq hl).2.1
  | reserved hc hl => exact (beginInFlight_eq_some hl).2.2.2
  | recorded ht hnoted hrecorded =>
    show (s.limiter.record _ _ _).isExempt = _
    unfold AuthLimiter.record
    split <;> rfl
  | forgaveNetwork i ip login =>
    show (s.limiter.forgiveNetwork _ _).isExempt = _
    unfold AuthLimiter.forgiveNetwork
    split
    · split <;> rfl
    · rfl
  | _ => rfl

/-- The calls after a step: a new one, or one that moved on; `exempt` is what it was. -/
theorem mem_calls_step (hs : step s e = some s') {c : Begin}
    (hc : c ∈ s'.calls) : c.exempt = s.limiter.isExempt c.ip ∨
      ∃ c₀ ∈ s.calls, c₀.ip = c.ip ∧ c₀.exempt = c.exempt := by
  obtain ⟨u, hu, rfl⟩ := step_eq_some.1 hs
  have moved : ∀ {i : Nat} {c₀ c₁ : Begin}, s.calls[i]? = some c₀ → c ∈ s.calls.set i c₁ →
      c₁.ip = c₀.ip → c₁.exempt = c₀.exempt → ∃ c₀ ∈ s.calls, c₀.ip = c.ip ∧
        c₀.exempt = c.exempt := by
    intro i c₀ c₁ h₀ hmem hip hex
    rcases mem_of_mem_set h₀ hmem with rfl | hmem
    · exact ⟨c₀, List.mem_of_getElem? h₀, hip.symm, hex.symm⟩
    · exact ⟨c, hmem, rfl, rfl⟩
  cases Acted.of_act hu with
  | begun ip login =>
    rcases List.mem_append.1 hc with hc | hc
    · exact .inr ⟨c, hc, rfl, rfl⟩
    · rw [List.mem_singleton.1 hc]
      exact .inl rfl
  | counted h₀ hl => exact .inr (moved h₀ hc rfl rfl)
  | overTheLine h₀ hl => exact .inr (moved h₀ hc rfl rfl)
  | looked h₀ hl => exact .inr (moved h₀ hc rfl rfl)
  | reserved h₀ hl => exact .inr (moved h₀ hc rfl rfl)
  | full h₀ => exact .inr (moved h₀ hc rfl rfl)
  | _ => exact .inr ⟨c, hc, rfl, rfl⟩

theorem Sane.step (h : Sane s) (hs : step s e = some s') : Sane s' where
  exempt := by
    intro c hc
    rw [step_isExempt hs]
    rcases mem_calls_step hs hc with hc | ⟨c₀, hc₀, hip, hex⟩
    · exact hc
    · rw [← hex, ← hip]
      exact h.exempt c₀ hc₀
  noted := by
    obtain ⟨u, hu, rfl⟩ := step_eq_some.1 hs
    intro t ht
    cases Acted.of_act hu with
    | reserved hc hl =>
      rcases List.mem_append.1 ht with ht | ht
      · exact h.noted t ht
      · rw [List.mem_singleton.1 ht]
        simp
    | @ended i t₀ right h₀ hlive hended =>
      rcases mem_of_mem_set h₀ ht with rfl | ht
      · intro hn
        rw [h.noted t₀ (List.mem_of_getElem? h₀) hn] at hended
        cases hended
      · exact h.noted t ht
    | @dropped i t₀ h₀ hlive =>
      rcases mem_of_mem_set h₀ ht with rfl | ht
      · exact h.noted t₀ (List.mem_of_getElem? h₀)
      · exact h.noted t ht
    | @noted i t₀ h₀ hended =>
      rcases mem_of_mem_set h₀ ht with rfl | ht
      · exact fun _ => hended
      · exact h.noted t ht
    | @recorded i t₀ h₀ hnoted hrecorded =>
      rcases mem_of_mem_set h₀ ht with rfl | ht
      · exact h.noted t₀ (List.mem_of_getElem? h₀)
      · exact h.noted t ht
    | _ => exact h.noted t ht
  recorded := by
    obtain ⟨u, hu, rfl⟩ := step_eq_some.1 hs
    intro t ht
    have old : ∀ t ∈ s.tries, ∀ k ∈ t.recorded, t.noted = true ∧ k < s.steps + 1 :=
      fun t ht k hk => ⟨(h.recorded t ht k hk).1, Nat.lt_succ_of_lt (h.recorded t ht k hk).2⟩
    cases Acted.of_act hu with
    | reserved hc hl =>
      rcases List.mem_append.1 ht with ht | ht
      · exact old t ht
      · rw [List.mem_singleton.1 ht]
        simp
    | @ended i t₀ right h₀ hlive hended =>
      rcases mem_of_mem_set h₀ ht with rfl | ht
      · exact old t₀ (List.mem_of_getElem? h₀)
      · exact old t ht
    | @dropped i t₀ h₀ hlive =>
      rcases mem_of_mem_set h₀ ht with rfl | ht
      · exact old t₀ (List.mem_of_getElem? h₀)
      · exact old t ht
    | @noted i t₀ h₀ hended =>
      rcases mem_of_mem_set h₀ ht with rfl | ht
      · exact fun k hk => ⟨rfl, (old t₀ (List.mem_of_getElem? h₀) k hk).2⟩
      · exact old t ht
    | @recorded i t₀ h₀ hnoted hrecorded =>
      rcases mem_of_mem_set h₀ ht with rfl | ht
      · intro k hk
        cases hk
        exact ⟨hnoted, Nat.lt_succ_self _⟩
      · exact old t ht
    | _ => exact old t ht

/-- The counts of a network in a run from `start` on, when `base` of its passwords were wrong
before. -/
structure Counting (network : IpAddr) (base : Nat) (start : Nat) (s : Sys) : Prop where
  started : start ≤ s.clock
  windowed : s.limiter.Windowed start network
  known : s.recordedFrom network s.steps ≤ base + s.limiter.wrongSince start network
  read : ∀ c ∈ s.calls, key c.ip = network → ∀ r ∈ c.phase.read,
    r.2 ≤ s.steps ∧ s.recordedFrom network r.2 ≤ base + r.1
  bounded : s.wrongFrom network + s.runningFrom network ≤ base + maxFailures

/-- All recorded failures were recorded before now, so a later `k` counts no more. -/
theorem Sane.recordedFrom_eq {s : Sys} (h : Sane s) (network : IpAddr) {k : Nat}
    (hk : s.steps ≤ k) : s.recordedFrom network k = s.recordedFrom network s.steps := by
  refine List.countP_congr fun t ht => ?_
  have hs := h.recorded t ht
  cases hr : t.recorded with
  | none => simp
  | some j =>
    have := (hs j (by simp [hr])).2
    simp [this, show j < k by omega]

/-- The state the network starts from. -/
theorem Counting.start {network : IpAddr} {s : Sys} (h : Sane s) (hs : Settled network s) :
    Counting network (s.wrongFrom network) s.clock s where
  started := le_rfl
  windowed := fun f since h => .inr (hs.window f since h)
  known := by
    refine le_trans (List.countP_mono_left fun t ht hp => ?_) (Nat.le_add_right _ _)
    simp only [Bool.and_eq_true] at hp ⊢
    obtain ⟨k, hk, -⟩ := (Option.any_eq_true _ _).1 hp.1
    have := h.noted t ht (h.recorded t ht k (by simp [hk])).1
    exact ⟨by simp [this], hp.2⟩
  read := by
    intro c hc hn r hr
    rw [hs.calls c hc hn] at hr
    simp [Phase.read] at hr
  bounded := by
    have : s.runningFrom network = 0 := by
      refine List.countP_eq_zero.2 fun t ht hp => ?_
      simp only [Bool.and_eq_true, decide_eq_true_eq] at hp
      have := (hs.tries t ht hp.2).1
      simp [this] at hp
    omega

section Counts

variable {l l' : AuthLimiter} {start now : Nat} {network : IpAddr}

theorem wrongSince_congr (h : l'.failures.lookup network = l.failures.lookup network) :
    l'.wrongSince start network = l.wrongSince start network := by
  simp only [AuthLimiter.wrongSince, h]

theorem wrongSince_eq {f : Failures} {since : Nat}
    (h : l.failures.lookup network = some (f, since)) :
    l.wrongSince start network = if start ≤ since then f.wrong else 0 := by
  simp only [AuthLimiter.wrongSince, h]

theorem wrongSince_none (h : l.failures.lookup network = none) :
    l.wrongSince start network = 0 := by
  simp only [AuthLimiter.wrongSince, h]

/-- Reading the failures changes no count, and within the window it reads the count. -/
theorem beginFailures_counts {n : IpAddr} {exempt : Bool} {r : Option Nat}
    (h : l.beginFailures now n exempt = (l', r)) (hw : l.Windowed start network)
    (hnow : start ≤ now) (hwin : now ≤ start + window) :
    l'.Windowed start network ∧ l'.wrongSince start network = l.wrongSince start network ∧
      (n = network → ∀ wrong ∈ r, wrong = l.wrongSince start network) := by
  obtain ⟨-, -, ⟨counted, since, hlookup, hover, herase, rfl⟩ | ⟨rfl, hlookup, rfl⟩ |
    ⟨rfl, counted, since, hlookup, hin, hr⟩⟩ := beginFailures_eq h
  · by_cases hn : n = network
    · subst hn
      have hnone : l'.failures.lookup n = none := by rw [herase, AList.lookup_erase]
      have hold : ¬ start ≤ since := by omega
      refine ⟨?_, ?_, ?_⟩
      · intro f t ht
        rw [hnone] at ht
        cases ht
      · rw [wrongSince_none hnone, wrongSince_eq hlookup, if_neg hold]
      · rintro - wrong hwrong
        cases hwrong
        rw [wrongSince_eq hlookup, if_neg hold]
    · have hsame : l'.failures.lookup network = l.failures.lookup network := by
        rw [herase, AList.lookup_erase_ne (Ne.symm hn)]
      refine ⟨?_, wrongSince_congr hsame, fun h => absurd h hn⟩
      intro f t ht
      exact hw f t (hsame ▸ ht)
  · refine ⟨hw, rfl, ?_⟩
    rintro rfl wrong hwrong
    cases hwrong
    exact (wrongSince_none hlookup).symm
  · refine ⟨hw, rfl, ?_⟩
    rintro rfl wrong hwrong
    rw [hr wrong hwrong, wrongSince_eq hlookup]
    rcases hw counted since hlookup with hs | hs
    · rw [if_pos hs]
    · omega

theorem Failures.add_wrong (f : Failures) (login : Option String) :
    (f.add (.wrong login)).wrong = f.wrong + 1 := by
  unfold Failures.add
  split
  · next h => cases h
  · rfl
  · split
    · rfl
    · split <;> rfl

/-- A recorded failure is one more for its network, and for no other. -/
theorem record_counts {ip : IpAddr} {login : Option String} (hexempt : l.isExempt ip = false)
    (hw : l.Windowed start network) (hnow : start ≤ now) (hwin : now ≤ start + window) :
    (l.record now ip (.wrong login)).Windowed start network ∧
      (l.record now ip (.wrong login)).wrongSince start network =
        l.wrongSince start network + if key ip = network then 1 else 0 := by
  -- The sweep takes only entries whose window is over, which count for nothing.
  obtain ⟨swept, hswept, hlook⟩ : ∃ swept : Dict IpAddr (Failures × Nat),
      (if maxEntries < l.failures.entries.length
        then l.failures.retain fun _ entry => decide (now - entry.2 ≤ window) else l.failures) =
        swept ∧ (swept.lookup network = l.failures.lookup network ∨ swept.lookup network = none ∧
          ∃ f since, l.failures.lookup network = some (f, since) ∧ window < now - since) := by
    refine ⟨_, rfl, ?_⟩
    split
    · rw [Dict.lookup_retain]
      cases hl : l.failures.lookup network with
      | none => exact .inl rfl
      | some entry =>
        by_cases hin : now - entry.2 ≤ window
        · exact .inl (Option.filter_some_pos (by simpa using hin))
        · exact .inr ⟨Option.filter_some_neg (by simpa using hin), entry.1, entry.2, rfl,
            by omega⟩
    · exact .inl rfl
  have hsame : (swept.lookup network = none ∧ l.wrongSince start network = 0) ∨
      ∃ f since, swept.lookup network = some (f, since) ∧
        l.failures.lookup network = some (f, since) := by
    rcases hlook with h | ⟨h, f, since, hl, hover⟩
    · cases hl : l.failures.lookup network with
      | none => exact .inl ⟨by rw [h, hl], wrongSince_none hl⟩
      | some entry => exact .inr ⟨entry.1, entry.2, by rw [h, hl], rfl⟩
    · exact .inl ⟨h, by rw [wrongSince_eq hl, if_neg (by omega)]⟩
  unfold AuthLimiter.record
  rw [if_neg (by simp [hexempt])]
  simp only [hswept]
  by_cases hn : key ip = network
  · subst hn
    rw [if_pos rfl]
    rcases hsame with ⟨hnone, hzero⟩ | ⟨f, since, hsome, hl⟩
    · have hself : now - now ≤ window := by omega
      simp only [hnone, Option.getD_none, if_neg (not_lt.2 hself)]
      refine ⟨?_, ?_⟩
      · intro f since h
        simp only [AList.lookup_insert, Option.some.injEq, Prod.mk.injEq] at h
        exact .inl (h.2 ▸ hnow)
      · rw [wrongSince_eq (AList.lookup_insert _), if_pos hnow, Failures.add_wrong, hzero]
    · simp only [hsome, Option.getD_some]
      rcases hw f since hl with hs | hs
      · rw [if_neg (show ¬ window < now - since by omega)]
        refine ⟨?_, ?_⟩
        · intro f' since' h
          simp only [AList.lookup_insert, Option.some.injEq, Prod.mk.injEq] at h
          exact .inl (h.2 ▸ hs)
        · rw [wrongSince_eq (AList.lookup_insert _), wrongSince_eq hl, if_pos hs, if_pos hs,
            Failures.add_wrong]
      · rw [if_pos (show window < now - since by omega)]
        refine ⟨?_, ?_⟩
        · intro f' since' h
          simp only [AList.lookup_insert, Option.some.injEq, Prod.mk.injEq] at h
          exact .inl (h.2 ▸ hnow)
        · rw [wrongSince_eq (AList.lookup_insert _), wrongSince_eq hl, if_pos hnow,
            if_neg (show ¬ start ≤ since by omega), Failures.add_wrong]
  · rw [if_neg hn]
    have hother : ∀ v, (swept.insert (key ip) v).lookup network = swept.lookup network :=
      fun v => AList.lookup_insert_ne (Ne.symm hn)
    rcases hsame with ⟨hnone, hzero⟩ | ⟨f, since, hsome, hl⟩
    · refine ⟨?_, ?_⟩
      · intro f since h
        rw [hother, hnone] at h
        cases h
      · rw [wrongSince_none (by rw [hother, hnone]), hzero]
    · refine ⟨?_, ?_⟩
      · intro f' since' h
        rw [hother, hsome, ← hl] at h
        exact hw f' since' h
      · exact wrongSince_congr (by rw [hother, hsome, hl])

end Counts

section CountingStep

variable {network : IpAddr} {base start : Nat} {s u : Sys}

theorem recordedFrom_succ_le (h : Sane s) (htries : u.tries = s.tries)
    (hknown : s.recordedFrom network s.steps ≤ base + u.limiter.wrongSince start network) :
    { u with steps := s.steps + 1 }.recordedFrom network (s.steps + 1) ≤
      base + u.limiter.wrongSince start network := by
  have : { u with steps := s.steps + 1 }.recordedFrom network (s.steps + 1) =
      s.recordedFrom network (s.steps + 1) := by
    simp only [Sys.recordedFrom, htries]
  rw [this, h.recordedFrom_eq network (Nat.le_succ _)]
  exact hknown

/-- A step that touches no try: the limiter counts what it did, and each call is new, or an old one
with what it had read, or has just read the count. -/
theorem Counting.of_tries_eq (h : Counting network base start s) (hsane : Sane s)
    (hclock : s.clock ≤ u.clock) (htries : u.tries = s.tries)
    (hw : u.limiter.Windowed start network)
    (hcount : u.limiter.wrongSince start network = s.limiter.wrongSince start network)
    (hcalls : ∀ c ∈ u.calls, c.phase.read = none ∨
      (∃ c₀ ∈ s.calls, c₀.ip = c.ip ∧ c₀.phase.read = c.phase.read) ∨
      c.phase.read = some (s.limiter.wrongSince start network, s.steps) ∨ key c.ip ≠ network) :
    Counting network base start { u with steps := s.steps + 1 } where
  started := le_trans h.started hclock
  windowed := hw
  known := recordedFrom_succ_le hsane htries (by rw [hcount]; exact h.known)
  read := by
    intro c hc hn r hr
    have hsame : ∀ k, { u with steps := s.steps + 1 }.recordedFrom network k =
        s.recordedFrom network k := by
      intro k
      simp only [Sys.recordedFrom, htries]
    rw [hsame]
    rcases hcalls c hc with hnone | ⟨c₀, hc₀, hip, hread⟩ | hread | hother
    · rw [hnone] at hr
      cases hr
    · have := h.read c₀ hc₀ (by rw [hip]; exact hn) r (by rw [hread]; exact hr)
      exact ⟨Nat.le_succ_of_le this.1, this.2⟩
    · rw [hread] at hr
      cases hr
      exact ⟨Nat.le_succ _, h.known⟩
    · exact absurd hn hother
  bounded := by
    have hw : { u with steps := s.steps + 1 }.wrongFrom network = s.wrongFrom network := by
      simp only [Sys.wrongFrom, htries]
    have hr : { u with steps := s.steps + 1 }.runningFrom network = s.runningFrom network := by
      simp only [Sys.runningFrom, htries]
    rw [hw, hr]
    exact h.bounded

/-- What a try weighs in the bound: a wrong password, or a check that runs. -/
def Try.weight (t : Try) : Nat :=
  (decide (t.ended = some false)).toNat + (t.live && t.ended.isNone).toNat

theorem weight_set_le {i : Nat} {t t' : Try} (ht : s.tries[i]? = some t) (hip : t'.ip = t.ip)
    (hweight : t'.weight ≤ t.weight) :
    { s with tries := s.tries.set i t' }.wrongFrom network +
        { s with tries := s.tries.set i t' }.runningFrom network ≤
      s.wrongFrom network + s.runningFrom network := by
  have hw := countP_set_add (b := t')
    (fun t => decide (t.ended = some false) && decide (key t.ip = network)) ht
  have hr := countP_set_add (b := t')
    (fun t => t.live && t.ended.isNone && decide (key t.ip = network)) ht
  unfold Sys.wrongFrom Sys.runningFrom
  unfold Try.weight at hweight
  by_cases hn : key t.ip = network
  · simp only [hip, hn, decide_true, Bool.and_true] at hw hr
    dsimp only
    omega
  · simp only [hip, hn, decide_false, Bool.and_false, Bool.toNat_false] at hw hr
    dsimp only
    omega

/-- A step of one try that leaves its network, the calls and its recording alone. -/
theorem Counting.of_set (h : Counting network base start s) (hsane : Sane s) {i : Nat} {t : Try}
    (ht : s.tries[i]? = some t) (t' : Try) (l : AuthLimiter) (hip : t'.ip = t.ip)
    (hrec : t'.recorded = t.recorded) (hl : l.failures = s.limiter.failures)
    (hweight : t'.weight ≤ t.weight) :
    Counting network base start
      { s with limiter := l, tries := s.tries.set i t', steps := s.steps + 1 } := by
  have hsame : ∀ k, { s with limiter := l, tries := s.tries.set i t', steps := s.steps + 1
      : Sys }.recordedFrom network k = s.recordedFrom network k :=
    fun k => countP_set_same ht (by simp only [hrec, hip])
  have hlook : l.failures.lookup network = s.limiter.failures.lookup network := by rw [hl]
  refine ⟨h.started, ?_, ?_, ?_, le_trans (weight_set_le ht hip hweight) h.bounded⟩
  · intro f since hf
    exact h.windowed f since (hlook ▸ hf)
  · rw [hsame, hsane.recordedFrom_eq network (Nat.le_succ _)]
    exact le_of_le_of_eq h.known (by rw [wrongSince_congr hlook])
  · intro c hc hn r hr
    rw [hsame]
    have := h.read c hc hn r hr
    exact ⟨Nat.le_succ_of_le this.1, this.2⟩

/-- The failure of one try is recorded: one more is known, and no call has read it yet. -/
theorem Counting.of_record (h : Counting network base start s) (hsane : Sane s) {i : Nat} {t : Try}
    (ht : s.tries[i]? = some t) (hrec : t.recorded = none)
    (hexempt : ∀ ip, key ip = network → s.limiter.isExempt ip = false)
    (hwin : s.clock ≤ start + window) :
    Counting network base start { s with
      limiter := s.limiter.record s.clock t.ip (.wrong (some t.login))
      tries := s.tries.set i { t with recorded := some s.steps }, steps := s.steps + 1 } := by
  have hcounts : (s.limiter.record s.clock t.ip (.wrong (some t.login))).Windowed start network ∧
      (s.limiter.record s.clock t.ip (.wrong (some t.login))).wrongSince start network =
        s.limiter.wrongSince start network + if key t.ip = network then 1 else 0 := by
    cases hex : s.limiter.isExempt t.ip with
    | false => exact record_counts hex h.windowed h.started hwin
    | true =>
      have hn : key t.ip ≠ network := fun hn => by simp [hexempt t.ip hn] at hex
      rw [if_neg hn, AuthLimiter.record, if_pos hex]
      exact ⟨h.windowed, rfl⟩
  refine ⟨h.started, hcounts.1, ?_, ?_, ?_⟩
  · have hall := hsane.recordedFrom_eq network (k := s.steps + 1) (Nat.le_succ _)
    have hset := countP_set_add (b := { t with recorded := some s.steps })
      (fun t => t.recorded.any (fun j => decide (j < s.steps + 1)) && decide (key t.ip = network)) ht
    have hknown := h.known
    show List.countP _ _ ≤ base + (s.limiter.record _ _ _).wrongSince start network
    rw [hcounts.2]
    unfold Sys.recordedFrom at hall hknown
    by_cases hn : key t.ip = network
    · simp only [hrec, hn, Option.any_none, Option.any_some, Nat.lt_succ_self, decide_true,
        Bool.and_true, Bool.toNat_false, Bool.toNat_true] at hset
      rw [if_pos hn]
      dsimp only
      omega
    · simp only [hn, decide_false, Bool.and_false, Bool.toNat_false] at hset
      rw [if_neg hn]
      dsimp only
      omega
  · intro c hc hn r hr
    obtain ⟨hle, hread⟩ := h.read c hc hn r hr
    refine ⟨Nat.le_succ_of_le hle, ?_⟩
    have : (s.tries.set i { t with recorded := some s.steps }).countP
        (fun t => t.recorded.any (fun j => decide (j < r.2)) && decide (key t.ip = network)) =
          s.recordedFrom network r.2 :=
      countP_set_same ht (by simp [hrec, not_lt.2 hle])
    exact le_of_eq_of_le this hread
  · exact le_trans (weight_set_le ht rfl le_rfl) h.bounded

/-- A call that moved on keeps what it had read, or reads nothing any more. -/
theorem read_of_mem_set {i : Nat} {c₀ c₁ c : Begin} (h₀ : s.calls[i]? = some c₀)
    (hc : c ∈ s.calls.set i c₁) (hip : c₁.ip = c₀.ip)
    (hread : c₁.phase.read = none ∨ c₁.phase.read = c₀.phase.read) :
    c.phase.read = none ∨ ∃ c₀ ∈ s.calls, c₀.ip = c.ip ∧ c₀.phase.read = c.phase.read := by
  rcases mem_of_mem_set h₀ hc with rfl | hc
  · rcases hread with h | h
    · exact .inl h
    · exact .inr ⟨c₀, List.mem_of_getElem? h₀, hip.symm, h.symm⟩
  · exact .inr ⟨c, hc, rfl, rfl⟩

/-- **A place is given away**: with what `begin` read covering every wrong check whose attempt is
gone, the wrong checks, the running ones and the new one fit. -/
theorem Counting.room {i : Nat} {c : Begin} {wrong readAt : Nat} (h : Counting network base start s)
    (hflight : InFlightOk s) (hc : s.calls[i]? = some c) (hn : key c.ip = network)
    (hread : c.phase.read = some (wrong, readAt)) (hok : Covered s (.beginInFlight i))
    (hroom : wrong + Dict.count s.limiter.inFlight.networks network < maxFailures) :
    s.wrongFrom network + s.runningFrom network + 1 ≤ base + maxFailures := by
  have hrec : s.recordedFrom network readAt ≤ base + wrong :=
    (h.read c (List.mem_of_getElem? hc) hn (wrong, readAt) hread).2
  have hcov : ∀ t ∈ s.tries, key t.ip = network → t.ended = some false → t.live = false →
      t.recorded.any (fun k => decide (k < readAt)) = true :=
    fun t ht hip he hl => hok c (by simp [hc]) (wrong, readAt) hread t ht (by rw [hip, hn]) he hl
  have hsplit : s.wrongFrom network + s.runningFrom network ≤
      s.recordedFrom network readAt + s.liveFrom network := by
    unfold Sys.wrongFrom Sys.runningFrom Sys.recordedFrom Sys.liveFrom
    generalize s.tries = ts at hcov
    induction ts with
    | nil => simp
    | cons t ts ih =>
      have ih := ih fun t' ht' => hcov t' (List.mem_cons_of_mem _ ht')
      have ht := hcov t List.mem_cons_self
      simp only [List.countP_cons]
      -- One try: wrong and dropped is recorded; wrong or running and not dropped is live.
      rcases t with ⟨ip, login, live, ended, noted, recorded⟩
      by_cases hip : key ip = network
      · cases live
        · by_cases he : ended = some false
          · simp [hip, he, ht hip he rfl]
            omega
          · simp [hip, he]
            omega
        · rcases ended with _ | _ | _ <;> simp [hip] <;> omega
      · simp [hip]
        omega
  rw [hflight] at hroom
  omega

theorem Counting.step {s' : Sys} (h : Counting network base start s) (hsane : Sane s)
    (hflight : InFlightOk s) (hexempt : ∀ ip, key ip = network → s.limiter.isExempt ip = false)
    (hok : Covered s e) (hguess : e.guessing = true) (hs : step s e = some s')
    (hwin : s.clock ≤ start + window) : Counting network base start s' := by
  obtain ⟨u, hu, rfl⟩ := step_eq_some.1 hs
  have old : ∀ c ∈ s.calls, c.phase.read = none ∨
      (∃ c₀ ∈ s.calls, c₀.ip = c.ip ∧ c₀.phase.read = c.phase.read) ∨
      c.phase.read = some (s.limiter.wrongSince start network, s.steps) ∨ key c.ip ≠ network :=
    fun c hc => .inr (.inl ⟨c, hc, rfl, rfl⟩)
  have moved : ∀ {i : Nat} {c₀ c₁ : Begin}, s.calls[i]? = some c₀ → c₁.ip = c₀.ip →
      (c₁.phase.read = none ∨ c₁.phase.read = c₀.phase.read) → ∀ c ∈ s.calls.set i c₁,
      c.phase.read = none ∨ (∃ c₀ ∈ s.calls, c₀.ip = c.ip ∧ c₀.phase.read = c.phase.read) ∨
      c.phase.read = some (s.limiter.wrongSince start network, s.steps) ∨ key c.ip ≠ network := by
    intro i c₀ c₁ h₀ hip hread c hc
    rcases read_of_mem_set h₀ hc hip hread with h | h
    · exact .inl h
    · exact .inr (.inl h)
  cases Acted.of_act hu with
  | ticked d =>
    exact h.of_tries_eq hsane (Nat.le_add_right _ _) rfl h.windowed rfl old
  | blocked ip untilTime => exact h.of_tries_eq hsane le_rfl rfl h.windowed rfl old
  | turnedAway ip login => exact h.of_tries_eq hsane le_rfl rfl h.windowed rfl old
  | begun ip login =>
    refine h.of_tries_eq hsane le_rfl rfl h.windowed rfl fun c hc => ?_
    rcases List.mem_append.1 hc with hc | hc
    · exact old c hc
    · rw [List.mem_singleton.1 hc]
      exact .inl rfl
  | @counted i ip login exempt l wrong hc hl =>
    obtain ⟨hw, hcount, hread⟩ := beginFailures_counts hl h.windowed h.started hwin
    refine h.of_tries_eq hsane le_rfl rfl hw hcount fun c hmem => ?_
    rcases mem_of_mem_set hc hmem with rfl | hmem
    · by_cases hn : key ip = network
      · rw [← hread hn wrong rfl]
        exact .inr (.inr (.inl rfl))
      · exact .inr (.inr (.inr hn))
    · exact old c hmem
  | overTheLine hc hl =>
    obtain ⟨hw, hcount, -⟩ := beginFailures_counts hl h.windowed h.started hwin
    exact h.of_tries_eq hsane le_rfl rfl hw hcount (moved hc rfl (.inl rfl))
  | looked hc hl =>
    obtain ⟨-, -, hfail⟩ := beginAccount_eq hl
    refine h.of_tries_eq hsane le_rfl rfl ?_ (wrongSince_congr (by rw [hfail]))
      (moved hc rfl (.inr rfl))
    intro f since hf
    exact h.windowed f since (hfail ▸ hf)
  | @reserved i ip login exempt wrong readAt count last l hc hl =>
    obtain ⟨hroom, -, hfail, -⟩ := beginInFlight_eq_some hl
    have hw : l.Windowed start network := fun f since hf => h.windowed f since (hfail ▸ hf)
    have hcount : l.wrongSince start network = s.limiter.wrongSince start network :=
      wrongSince_congr (by rw [hfail])
    -- First the call ends, as when there is no room; then the new try is counted.
    have hend := h.of_tries_eq (u := { s with
        limiter := l, calls := s.calls.set i ⟨ip, login, exempt, .over⟩ }) hsane le_rfl rfl hw hcount
      (moved hc rfl (.inl rfl))
    refine ⟨hend.started, hend.windowed, ?_, ?_, ?_⟩
    · exact le_of_eq_of_le (by simp [Sys.recordedFrom]) hend.known
    · intro c hmem hn r hr
      refine ⟨(hend.read c hmem hn r hr).1, ?_⟩
      exact le_of_eq_of_le (by simp [Sys.recordedFrom]) (hend.read c hmem hn r hr).2
    · by_cases hn : key ip = network
      · have hex : exempt = false := by
          have : exempt = s.limiter.isExempt ip := hsane.exempt _ (List.mem_of_getElem? hc)
          rw [this]
          exact hexempt ip hn
        have := h.room hflight hc hn rfl hok (hn ▸ hroom hex)
        simp only [Sys.wrongFrom, Sys.runningFrom, List.countP_append, List.countP_singleton] at this ⊢
        simp [hn]
        omega
      · have := h.bounded
        simp only [Sys.wrongFrom, Sys.runningFrom, List.countP_append, List.countP_singleton] at this ⊢
        simp [hn]
        omega
  | full hc => exact h.of_tries_eq hsane le_rfl rfl h.windowed rfl (moved hc rfl (.inl rfl))
  | @ended i t right ht hlive hended =>
    refine h.of_set hsane ht { t with ended := some right } s.limiter rfl rfl rfl ?_
    cases right <;> simp [Try.weight, hlive, hended]
  | @dropped i t ht hlive =>
    refine h.of_set hsane ht { t with live := false } _ rfl rfl rfl ?_
    simp [Try.weight]
  | @noted i t ht hended => exact h.of_set hsane ht { t with noted := true } _ rfl rfl rfl le_rfl
  | recorded ht hnoted hrecorded => exact h.of_record hsane ht hrecorded hexempt hwin
  | forgaveAccount i login => cases hguess
  | forgaveNetwork i ip login => cases hguess

end CountingStep

/-- A limiter that has counted nothing yet. -/
def Sys.fresh (isExempt : IpAddr → Bool) (clock : Nat) : Sys :=
  { limiter := { isExempt := isExempt }, clock := clock }

theorem clock_le_step (hs : step s e = some s') : s.clock ≤ s'.clock := by
  obtain ⟨u, hu, rfl⟩ := step_eq_some.1 hs
  cases Acted.of_act hu with
  | ticked d => exact Nat.le_add_right _ _
  | _ => exact le_rfl

theorem sane_run {isExempt : IpAddr → Bool} {clock : Nat} {es : List Event} {s : Sys}
    (h : run step (.fresh isExempt clock) es = some s) :
    Sane s ∧ InFlightOk s ∧ s.limiter.isExempt = isExempt := by
  refine run_invariant' (P := fun s => Sane s ∧ InFlightOk s ∧ s.limiter.isExempt = isExempt)
    ?_ ?_ h
  · rintro s e s' ⟨h₁, h₂, h₃⟩ hs
    exact ⟨h₁.step hs, h₂.step hs, (step_isExempt hs).trans h₃⟩
  · exact ⟨⟨by simp [Sys.fresh], by simp [Sys.fresh], by simp [Sys.fresh]⟩,
      fun n => by simp [Sys.fresh, Dict.count, Sys.liveFrom], rfl⟩

/-- **Guessing is bounded, and what is in flight is counted.**  A network none of whose addresses is
exempt, with nothing under way and no window running, gets at most `maxFailures` wrong passwords
checked within a window, in every interleaving in which no place is given away while a wrong check
is between two counts.  In every interleaving at all, the count in flight is the number of live
attempts of the network. -/
theorem wrong_passwords_within_maximum (isExempt : IpAddr → Bool) (clock : Nat) (es₀ es : List Event)
    (s s' : Sys) (network : IpAddr) (hs : run step (.fresh isExempt clock) es₀ = some s)
    (hexempt : ∀ ip, key ip = network → isExempt ip = false) (hsettled : Settled network s)
    (hok : Along step (fun s e => Covered s e ∧ e.guessing = true) s es) (hrun : run step s es = some s')
    (hwindow : s'.clock ≤ s.clock + window) :
    s'.wrongFrom network ≤ s.wrongFrom network + maxFailures ∧
      ∀ es₁ s₁, run step (.fresh isExempt clock) es₁ = some s₁ → ∀ n,
        Dict.count s₁.limiter.inFlight.networks n = s₁.liveFrom n := by
  refine ⟨?_, fun es₁ s₁ h₁ => (sane_run h₁).2.1⟩
  obtain ⟨hsane, hflight, hex⟩ := sane_run hs
  -- The clock only goes forward, so the window is not over anywhere on the way.
  have hinv := run_invariant
    (P := fun u => Sane u ∧ InFlightOk u ∧ u.limiter.isExempt = isExempt ∧
      (u.clock ≤ s.clock + window → Counting network (s.wrongFrom network) s.clock u))
    (by
      rintro u e u' ⟨h₁, h₂, h₃, h₄⟩ ⟨hcov, hguess⟩ hu
      refine ⟨h₁.step hu, h₂.step hu, (step_isExempt hu).trans h₃, fun hwin => ?_⟩
      have hbefore : u.clock ≤ s.clock + window := le_trans (clock_le_step hu) hwin
      exact (h₄ hbefore).step h₁ h₂ (by rw [h₃]; exact hexempt) hcov hguess hu hbefore)
    ⟨hsane, hflight, hex, fun _ => Counting.start hsane hsettled⟩ hok hrun
  exact le_trans (Nat.le_add_right _ _) (hinv.2.2.2 hwindow).bounded

/-- An address, and a guess at one of its logins up to where its password is found wrong. -/
def guesser : IpAddr := .v4 0xc0000201#32

def guess (i : Nat) (login : String) : List Event :=
  [.begin guesser login, .beginFailures i, .beginAccount i, .beginInFlight i, .endCheck i false]

/-- One wrong password, from its `begin` to its failure on record. -/
theorem one_guess_within_maximum :
    (((run step (.fresh (fun _ => false) 0)
      (guess 0 "mini@example.org" ++ [.drop 0, .recordAccount 0, .record 0])).map
        fun s => s.wrongFrom (key guesser)) = some 1) ∧
    ∀ s', run step (.fresh (fun _ => false) 0)
      (guess 0 "mini@example.org" ++ [.drop 0, .recordAccount 0, .record 0]) = some s' →
      s'.clock ≤ window → s'.wrongFrom (key guesser) ≤ 0 + maxFailures := by
  refine ⟨by decide, fun s' hrun hclock => ?_⟩
  exact (wrong_passwords_within_maximum (fun _ => false) 0 []
    (guess 0 "mini@example.org" ++ [.drop 0, .recordAccount 0, .record 0]) _ s' (key guesser) rfl
    (fun _ _ => rfl) ⟨by simp [Sys.fresh], by simp [Sys.fresh], by simp [Sys.fresh]⟩
    (by decide) hrun (by simpa [Sys.fresh] using hclock)).1

/-- Nine guesses one after the other, and then two whose checks both end before the first of them is
on record: its attempt is dropped, so the second finds nine failures and nobody in flight. -/
def lateRecord : List Event :=
  (List.range 9).flatMap (fun i =>
    guess i "mini@example.org" ++ [.drop i, .recordAccount i, .record i]) ++
  guess 9 "nyu@example.org" ++ [.drop 9] ++ guess 10 "admin@example.org"

/-- **The maximum is exceeded**, within one window and without any password that was right. -/
theorem eleven_wrong_passwords :
    lateRecord.all Event.guessing = true ∧
    (run step (.fresh (fun _ => false) 0) lateRecord).map
      (fun s => (s.clock, s.wrongFrom (key guesser))) = some (0, 11) ∧ maxFailures < 11 := by
  decide

end UwuMail.Limiter
