/-
# Strikes and suspensions

`record_send_strike` and `lift_send_suspension` of `abuse.rs`: an account whose mail looks like
abuse gets strikes, and a few of them within a window stop its mail to other servers for a while.

Two things are meant to hold.  Reaching the sending limit alone suspends nobody, for it is one
offence a window however often it is tried; and a suspension gives a clean slate, so that "a single
new strike does not send it straight back".  The first holds in every run.  The second does not: the
slate is cleaned where the suspension BEGINS, strikes go on being kept while it runs, and where the
window is longer than what is left of it they count behind its end (`one_strike_suspends_again`).
It holds in runs in which no such strike decides (`suspensions_earned`).
-/
import UwuMail.Lib.Table
import UwuMail.Lib.Trace
import UwuMail.Store.Schema

namespace UwuMail.Store.Strikes

/-! ## 1. The source -/

/-- Strikes older than this are gone whatever the window says. -/
def strikesKeptSecs : Int := 7 * 24 * 3600

inductive StrikeKind
  /-- The outbound spam scan refused a message. -/
  | spam
  /-- The account reached its sending limit. -/
  | rateLimit
  /-- Another server refused a recipient for good. -/
  | bounce
  /-- Somebody complained about a message. -/
  | complaint
deriving DecidableEq

def StrikeKind.asStr : StrikeKind → String
  | .spam => "spam"
  | .rateLimit => "rateLimit"
  | .bounce => "bounce"
  | .complaint => "complaint"

/-- When strikes lead to a suspension; a zero turns that part off. -/
structure StrikeLimits where
  /-- Spam, rate-limit and complaint strikes within the window. -/
  strikes : Nat
  /-- Hard bounces within the window. -/
  bounces : Nat
  windowSecs : Int
  suspendSecs : Int

/-- A row of `send_strikes`. -/
structure Strike where
  accountId : Int
  kind : StrikeKind
  time : Int

/-- A row of `send_suspensions`. -/
structure Suspension where
  accountId : Int
  since : Int
  ends : Int
  reason : String
deriving DecidableEq

structure SendSuspension where
  accountId : Int
  login : String
  since : Int
  ends : Int
  reason : String

/-- The logins of the accounts, their strikes and their suspensions. -/
structure Db where
  accounts : List (Int × String)
  strikes : List Strike := []
  suspensions : List Suspension := []

/-- Bounces are counted apart. -/
def StrikeLimits.of (limits : StrikeLimits) : StrikeKind → Nat
  | .bounce => limits.bounces
  | _ => limits.strikes

def Db.suspended (db : Db) (accountId now : Int) : Bool :=
  db.suspensions.any fun s => s.accountId == accountId && decide (s.ends > now)

/-- The strikes of the account within the window that count with one of `kind`. -/
def Db.count (db : Db) (limits : StrikeLimits) (accountId : Int) (kind : StrikeKind) (now : Int) : Nat :=
  db.strikes.countP fun s =>
    s.accountId == accountId && decide (s.time > now - limits.windowSecs) && (s.kind == .bounce) ==
      (kind == .bounce)

/-- `send_suspensions` joined with `accounts`. -/
def Db.joined (db : Db) (s : Suspension) : Option SendSuspension :=
  (db.accounts.find? (·.1 == s.accountId)).map fun account =>
    ⟨s.accountId, account.2, s.since, s.ends, s.reason⟩

/-- `INSERT .. ON CONFLICT (account_id) DO UPDATE`. -/
def upsert (s : Suspension) (t : List Suspension) : List Suspension :=
  if t.any (·.accountId == s.accountId) then Table.updateWhere (·.accountId == s.accountId) (fun _ => s) t
  else t ++ [s]

/-- Counts a strike.  Answers the suspension when this strike started one. -/
def recordSendStrike (accountId : Int) (kind : StrikeKind) (now : Int) (limits : StrikeLimits) (db : Db) :
    Except StoreError (Db × Option SendSuspension) :=
  let db := { db with
    strikes := Table.deleteWhere (fun s => s.time < now - max strikesKeptSecs limits.windowSecs) db.strikes }
  -- A mail client tries again what the limit refused: one offence per window.
  if kind = .rateLimit ∧ (db.strikes.any fun s =>
      s.accountId == accountId && s.kind == kind && decide (s.time > now - limits.windowSecs)) = true then
    .ok (db, none)
  else if (db.accounts.any (·.1 == accountId)) = false then .error (.sqlite "FOREIGN KEY constraint failed")
  else
    let db := { db with strikes := db.strikes ++ [⟨accountId, kind, now⟩] }
    if db.suspended accountId now = true ∨ limits.suspendSecs ≤ 0 then .ok (db, none)
    else if limits.of kind = 0 then .ok (db, none)
    else if db.count limits accountId kind now < limits.of kind then .ok (db, none)
    else
      let suspension : Suspension := ⟨accountId, now, now + limits.suspendSecs, kind.asStr⟩
      let db := { db with
        strikes := Table.deleteWhere (·.accountId == accountId) db.strikes
        suspensions := upsert suspension db.suspensions }
      .ok (db, (db.suspensions.find? (·.accountId == accountId)).bind db.joined)

/-- Ends a suspension early, and forgets the strikes that led to it. -/
def liftSendSuspension (accountId now : Int) (db : Db) : Except StoreError (Db × SendSuspension) :=
  match (db.suspensions.find? fun s => s.accountId == accountId && decide (s.ends > now)).bind db.joined with
  | none => .error (.notFound s!"suspension of account {accountId}")
  | some found =>
    .ok ({ db with
      suspensions := Table.deleteWhere (·.accountId == accountId) db.suspensions
      strikes := Table.deleteWhere (·.accountId == accountId) db.strikes }, found)

/-! ## 2. Runs -/

inductive Call
  | record (accountId : Int) (kind : StrikeKind) (now : Int)
  | lift (accountId now : Int)

def Call.now : Call → Int
  | .record _ _ now => now
  | .lift _ now => now

/-- What happened. -/
inductive Deed
  | strike (accountId : Int) (kind : StrikeKind) (time : Int)
  /-- A strike of that kind started a suspension. -/
  | suspended (accountId : Int) (kind : StrikeKind) (time ends : Int)
  | lifted (accountId : Int)
deriving DecidableEq

/-- The database, the time of the last call, and what happened, the newest first. -/
structure Seen where
  db : Db
  now : Int
  log : List Deed := []

/-- The next call; time does not go back, and a call that fails changes nothing. -/
def step (limits : StrikeLimits) (s : Seen) (call : Call) : Option Seen :=
  if call.now < s.now then none
  else
    match call with
    | .record account kind now =>
      match recordSendStrike account kind now limits s.db with
      | .error _ => some { s with now }
      | .ok (db, none) => some ⟨db, now, .strike account kind now :: s.log⟩
      | .ok (db, some started) => some ⟨db, now,
        .suspended account kind now started.ends :: .strike account kind now :: s.log⟩
    | .lift account now =>
      match liftSendSuspension account now s.db with
      | .error _ => some { s with now }
      | .ok (db, _) => some ⟨db, now, .lifted account :: s.log⟩

def start (accounts : List (Int × String)) (now : Int) : Seen := ⟨{ accounts }, now, []⟩

/-- Whether a suspension of the account runs at `now`, by what happened. -/
def running (account now : Int) : List Deed → Bool
  | [] => false
  | .strike .. :: log => running account now log
  | .suspended a _ _ ends :: log => if a = account then decide (ends > now) else running account now log
  | .lifted a :: log => if a = account then false else running account now log

/-- A strike, and whether the account was suspended when it was made. -/
structure Made where
  kind : StrikeKind
  time : Int
  suspended : Bool

/-- The strikes of the account since its last suspension began or was lifted, the newest first. -/
def made (account : Int) : List Deed → List Made
  | [] => []
  | .strike a kind time :: log =>
    if a = account then ⟨kind, time, running account time log⟩ :: made account log else made account log
  | .suspended a .. :: log => if a = account then [] else made account log
  | .lifted a :: log => if a = account then [] else made account log

/-- Strikes at the sending limit are one offence. -/
def offences (strikes : List Made) : Nat :=
  strikes.countP (·.kind ≠ .rateLimit) + if strikes.any (·.kind = .rateLimit) then 1 else 0

/-- Those in the window that count with one of `kind`. -/
def within (limits : StrikeLimits) (kind : StrikeKind) (now : Int) (strikes : List Made) : List Made :=
  strikes.filter fun m => m.time > now - limits.windowSecs ∧ (m.kind = .bounce ↔ kind = .bounce)

/-- **Every suspension is earned**: by as many strikes as the limit says, made since the last one
while the account was not suspended. -/
def Earned (limits : StrikeLimits) : List Deed → Prop
  | [] => True
  | .suspended account kind now _ :: log =>
    limits.of kind ≤ offences ((within limits kind now (made account log)).filter (!·.suspended)) ∧
      Earned limits log
  | _ :: log => Earned limits log

/-- **The sending limit alone suspends nobody.** -/
def NotForLimit (limits : StrikeLimits) : List Deed → Prop
  | [] => True
  | .suspended account kind now _ :: log =>
    (∃ m ∈ within limits kind now (made account log), m.kind ≠ .rateLimit) ∧ NotForLimit limits log
  | _ :: log => NotForLimit limits log

/-- Where a strike is made outside a suspension, none that was made during the last one is of its
sort and still in the window, or the limit is not reached with them either. -/
def Clean (limits : StrikeLimits) (s : Seen) : Call → Prop
  | .record account kind now => running account now s.log = false →
      (∀ m ∈ within limits kind now (made account s.log), m.suspended = false) ∨
        offences (within limits kind now (made account (.strike account kind now :: s.log))) < limits.of kind
  | .lift .. => True

instance (limits : StrikeLimits) (s : Seen) (call : Call) : Decidable (Clean limits s call) := by
  unfold Clean
  cases call <;> infer_instance

/-! ## 3. What a call does -/

variable {limits : StrikeLimits} {s s' : Seen} {db db' : Db} {account a : Int} {kind : StrikeKind}
  {now t : Int} {log : List Deed} {call : Call}

/-- The strikes that are left when a new one comes. -/
def pruned (limits : StrikeLimits) (now : Int) (db : Db) : List Strike :=
  Table.deleteWhere (fun s => s.time < now - max strikesKeptSecs limits.windowSecs) db.strikes

/-- No strike at the sending limit is in the window. -/
def NoneRecent (limits : StrikeLimits) (account now : Int) (strikes : List Strike) : Prop :=
  ∀ s ∈ strikes, s.accountId = account → s.kind = .rateLimit → s.time ≤ now - limits.windowSecs

/-- The database behind a strike that is kept. -/
def struck (limits : StrikeLimits) (account : Int) (kind : StrikeKind) (now : Int) (db : Db) : Db :=
  { db with strikes := pruned limits now db ++ [⟨account, kind, now⟩] }

/-- The database behind a suspension. -/
def suspend (limits : StrikeLimits) (account : Int) (kind : StrikeKind) (now : Int) (db : Db) : Db :=
  { db with
    strikes := Table.deleteWhere (·.accountId == account) db.strikes
    suspensions := upsert ⟨account, now, now + limits.suspendSecs, kind.asStr⟩ db.suspensions }

theorem any_upsert (s : Suspension) (t : List Suspension) (account now : Int) :
    ((upsert s t).any fun r => r.accountId == account && decide (r.ends > now)) =
      if s.accountId = account then decide (s.ends > now)
      else t.any fun r => r.accountId == account && decide (r.ends > now) := by
  unfold upsert
  split
  · rename_i hthere
    obtain ⟨found, hfound, heq⟩ := List.any_eq_true.1 hthere
    unfold Table.updateWhere
    rw [List.any_map]
    by_cases haccount : s.accountId = account
    · subst haccount
      rw [if_pos rfl, Bool.eq_iff_iff, List.any_eq_true]
      constructor
      · rintro ⟨r, -, hr⟩
        by_cases hkey : (r.accountId == s.accountId) = true
        · rw [Function.comp_apply, if_pos hkey, Bool.and_eq_true] at hr
          exact hr.2
        · rw [Function.comp_apply, if_neg hkey, Bool.and_eq_true] at hr
          exact absurd hr.1 hkey
      · intro hends
        refine ⟨found, hfound, ?_⟩
        rw [Function.comp_apply, if_pos heq, Bool.and_eq_true]
        exact ⟨beq_self_eq_true _, hends⟩
    · rw [if_neg haccount]
      refine List.any_congr rfl fun r => ?_
      rw [Function.comp_apply]
      split
      · rename_i hkey
        rw [beq_iff_eq.1 hkey, beq_false_of_ne haccount]
        simp
      · rfl
  · rename_i hthere
    rw [List.any_append]
    by_cases haccount : s.accountId = account
    · subst haccount
      have hnone : (t.any fun r => r.accountId == s.accountId && decide (r.ends > now)) = false := by
        rw [List.any_eq_false]
        intro r hr hboth
        exact hthere (List.any_eq_true.2 ⟨r, hr, (Bool.and_eq_true _ _ ▸ hboth).1⟩)
      rw [hnone, if_pos rfl, Bool.false_or, List.any_cons, List.any_nil, beq_self_eq_true,
        Bool.true_and, Bool.or_false]
    · rw [if_neg haccount, List.any_cons, List.any_nil, beq_false_of_ne haccount, Bool.false_and,
        Bool.or_false,
        Bool.or_false]

theorem find_upsert (s : Suspension) (t : List Suspension) :
    (upsert s t).find? (·.accountId == s.accountId) = some s := by
  unfold upsert
  split
  · rename_i hthere
    unfold Table.updateWhere
    induction t with
    | nil => cases hthere
    | cons r t ih =>
      rw [List.map_cons]
      by_cases hkey : (r.accountId == s.accountId) = true
      · rw [if_pos hkey]
        exact List.find?_cons_of_pos (beq_self_eq_true s.accountId)
      · rw [if_neg hkey]
        rw [List.any_cons, Bool.or_eq_true] at hthere
        exact (List.find?_cons_of_neg (p := fun r : Suspension => r.accountId == s.accountId)
          hkey).trans (ih (hthere.resolve_left hkey))
  · rename_i hthere
    rw [List.find?_append, List.find?_eq_none.2 fun r hr hkey => hthere (List.any_eq_true.2 ⟨r, hr, hkey⟩),
      Option.none_or]
    exact List.find?_cons_of_pos (beq_self_eq_true s.accountId)

/-- **What becomes of a strike**: it is one too many in its window, or it is kept, or it starts a
suspension. -/
theorem record_cases {r : Option SendSuspension}
    (h : recordSendStrike account kind now limits db = .ok (db', r)) :
    (r = none ∧ db' = { db with strikes := pruned limits now db }) ∨
      (kind = .rateLimit → NoneRecent limits account now (pruned limits now db)) ∧
        ((r = none ∧ db' = struck limits account kind now db) ∨
          ∃ started, r = some started ∧ started.ends = now + limits.suspendSecs ∧
            db.suspended account now = false ∧
            limits.of kind ≤ (struck limits account kind now db).count limits account kind now ∧
            db' = suspend limits account kind now (struck limits account kind now db)) := by
  unfold recordSendStrike at h
  dsimp only at h
  split at h
  · cases h
    exact .inl ⟨rfl, rfl⟩
  · rename_i hrecent
    split at h
    · cases h
    · rename_i hthere
      refine .inr ⟨fun hkind s hs haccount hlimit => ?_, ?_⟩
      · refine Int.not_lt.1 fun hlt => hrecent ⟨hkind, List.any_eq_true.2 ⟨s, hs, ?_⟩⟩
        simp only [Bool.and_eq_true, beq_iff_eq, decide_eq_true_eq]
        exact ⟨⟨haccount, hlimit.trans hkind.symm⟩, hlt⟩
      · split at h
        · cases h
          exact .inl ⟨rfl, rfl⟩
        · rename_i hfree
          split at h
          · cases h
            exact .inl ⟨rfl, rfl⟩
          · split at h
            · cases h
              exact .inl ⟨rfl, rfl⟩
            · rename_i hcount
              obtain ⟨login, hlogin⟩ : ∃ login, db.accounts.find? (·.1 == account) = some login := by
                rw [← Option.isSome_iff_exists, List.find?_isSome]
                exact List.any_eq_true.1 (Bool.eq_true_of_not_eq_false hthere)
              rw [find_upsert ⟨account, now, now + limits.suspendSecs, kind.asStr⟩,
                Option.bind_some, Db.joined] at h
              dsimp only at h
              rw [hlogin] at h
              cases h
              exact .inr ⟨_, rfl, rfl, Bool.eq_false_iff.2 fun h => hfree (.inl h),
                Nat.le_of_not_lt hcount, rfl⟩

theorem lift_cases {r : SendSuspension} (h : liftSendSuspension account now db = .ok (db', r)) :
    db' = { db with
      suspensions := Table.deleteWhere (·.accountId == account) db.suspensions
      strikes := Table.deleteWhere (·.accountId == account) db.strikes } := by
  unfold liftSendSuspension at h
  split at h
  · cases h
  · cases h
    rfl

/-! ## 4. The table and what happened -/

theorem made_strike : made a (.strike account kind now :: log) =
    if account = a then ⟨kind, now, running a now log⟩ :: made a log else made a log := rfl

/-- A strike of the account, without the account. -/
def Strike.sort (s : Strike) : StrikeKind × Int := (s.kind, s.time)

def Made.sort (m : Made) : StrikeKind × Int := (m.kind, m.time)

/-- What holds of the table in every run. -/
structure Kept (limits : StrikeLimits) (s : Seen) : Prop where
  running : ∀ account now, s.db.suspended account now = running account now s.log
  /-- The strikes are some of those that were made since the last suspension. -/
  rows : ∀ account, ((s.db.strikes.filter (·.accountId == account)).map Strike.sort).Sublist
    ((made account s.log).map Made.sort).reverse
  /-- There is one at the sending limit for each window. -/
  apart : ∀ account, (s.db.strikes.filter fun r => r.accountId == account && r.kind == .rateLimit).Pairwise
    fun x y => x.time ≤ y.time - limits.windowSecs
  past : ∀ r ∈ s.db.strikes, r.time ≤ s.now

theorem pruned_sublist (limits : StrikeLimits) (now : Int) (db : Db) :
    (pruned limits now db).Sublist db.strikes :=
  Table.deleteWhere_sublist _ _

/-- Strikes that are forgotten break nothing. -/
theorem Kept.prune (h : Kept limits s) (hnow : s.now ≤ now) :
    Kept limits ⟨{ s.db with strikes := pruned limits now s.db }, now, s.log⟩ where
  running := h.running
  rows := fun account => (((pruned_sublist limits now s.db).filter _).map _).trans (h.rows account)
  apart := fun account => (h.apart account).sublist ((pruned_sublist limits now s.db).filter _)
  past := fun r hr => Int.le_trans (h.past r ((pruned_sublist limits now s.db).subset hr)) hnow

/-- A strike that is not kept is made all the same. -/
theorem Kept.repeated (h : Kept limits s) : Kept limits
    { s with log := .strike account kind now :: s.log } where
  running := h.running
  rows := fun a => by
    refine (h.rows a).trans ?_
    rw [made_strike]
    split
    · rw [List.map_cons, List.reverse_cons]
      exact List.sublist_append_left _ _
    · exact List.Sublist.refl _
  apart := h.apart
  past := h.past

theorem Kept.strike (h : Kept limits s) (hnow : s.now ≤ now)
    (hnone : kind = .rateLimit → NoneRecent limits account now (pruned limits now s.db)) :
    Kept limits ⟨struck limits account kind now s.db, now, .strike account kind now :: s.log⟩ where
  running := h.running
  rows := fun a => by
    have hold := (h.prune hnow).rows a
    rw [struck, List.filter_append, List.map_append, made_strike]
    by_cases ha : account = a
    · subst ha
      have hnew : [(⟨account, kind, now⟩ : Strike)].filter (·.accountId == account) =
        [⟨account, kind, now⟩] := by simp
      rw [if_pos rfl, List.map_cons, List.reverse_cons, hnew]
      exact hold.append (List.Sublist.refl _)
    · rw [if_neg ha, List.filter_cons_of_neg (by simpa using ha)]
      simpa using hold
  apart := fun a => by
    rw [struck, List.filter_append, List.pairwise_append]
    refine ⟨(h.prune hnow).apart a, ?_, fun x hx y hy => ?_⟩
    · exact (List.pairwise_singleton _ _).sublist List.filter_sublist
    · obtain ⟨hy, hlimit⟩ := List.mem_filter.1 hy
      obtain rfl := List.mem_singleton.1 hy
      obtain ⟨hx, hxa⟩ := List.mem_filter.1 hx
      simp only [Bool.and_eq_true, beq_iff_eq] at hlimit hxa
      exact hnone hlimit.2 x hx (hxa.1.trans hlimit.1.symm) hxa.2
  past := fun r hr => by
    rcases List.mem_append.1 hr with hr | hr
    · exact (h.prune hnow).past r hr
    · obtain rfl := List.mem_singleton.1 hr
      exact Int.le_refl _

/-- The strikes of the account are gone, those of the others are as they were. -/
theorem filter_forgotten (p : Strike → Bool) (strikes : List Strike) :
    (Table.deleteWhere (·.accountId == account) strikes).filter (fun r => r.accountId == a && p r) =
      if account = a then [] else strikes.filter fun r => r.accountId == a && p r := by
  unfold Table.deleteWhere
  rw [List.filter_filter]
  split
  · rename_i ha
    subst ha
    refine List.filter_eq_nil_iff.2 fun r _ hr => ?_
    simp only [Bool.and_eq_true, Bool.not_eq_true'] at hr
    rw [hr.1.1] at hr
    exact Bool.noConfusion hr.2
  · rename_i ha
    refine List.filter_congr fun r _ => ?_
    by_cases hr : r.accountId = a
    · have hne : (a == account) = false := beq_false_of_ne (Ne.symm ha)
      simp [hr, hne]
    · rw [beq_false_of_ne hr]
      simp

/-- Where the account's strikes are forgotten none was made since. -/
theorem Kept.forget (h : Kept limits s) (account a : Int) :
    (((Table.deleteWhere (·.accountId == account) s.db.strikes).filter (·.accountId == a)).map Strike.sort).Sublist
        ((if account = a then [] else made a s.log).map Made.sort).reverse ∧
      ((Table.deleteWhere (·.accountId == account) s.db.strikes).filter
        fun r => r.accountId == a && r.kind == .rateLimit).Pairwise fun x y => x.time ≤
            y.time - limits.windowSecs := by
  have hfilter := @filter_forgotten account a (fun _ => true) s.db.strikes
  simp only [Bool.and_true] at hfilter
  rw [hfilter, filter_forgotten]
  split
  · exact ⟨List.Sublist.refl _, List.Pairwise.nil⟩
  · exact ⟨h.rows a, h.apart a⟩

theorem Kept.suspend (h : Kept limits s) (hnow : s.now = now) : Kept limits
    ⟨suspend limits account kind now s.db, now,
      .suspended account kind now (now + limits.suspendSecs) :: s.log⟩ where
  running := fun a t => by
    change ((upsert _ s.db.suspensions).any _) = _
    rw [any_upsert]
    unfold Strikes.running
    rw [← h.running a t]
    rfl
  rows := fun a => (h.forget account a).1
  apart := fun a => (h.forget account a).2
  past := fun r hr => hnow ▸ h.past r ((Table.deleteWhere_sublist _ _).subset hr)

theorem Kept.lift (h : Kept limits s) (account : Int) : Kept limits
    ⟨{ s.db with
        suspensions := Table.deleteWhere (·.accountId == account) s.db.suspensions
        strikes := Table.deleteWhere (·.accountId == account) s.db.strikes }, s.now,
          .lifted account :: s.log⟩ where
  running := fun a t => by
    change ((Table.deleteWhere (fun r : Suspension => r.accountId == account) s.db.suspensions).any _) =
      if account = a then false else Strikes.running a t s.log
    unfold Table.deleteWhere
    rw [List.any_filter, ← h.running a t]
    split
    · rename_i ha
      subst ha
      refine List.any_eq_false.2 fun r _ hr => ?_
      simp only [Bool.and_eq_true, Bool.not_eq_true'] at hr
      rw [hr.2.1] at hr
      exact Bool.noConfusion hr.1
    · rename_i ha
      refine List.any_congr rfl fun r => ?_
      by_cases hr : r.accountId = a
      · have hne : (a == account) = false := beq_false_of_ne (Ne.symm ha)
        simp [hr, hne]
      · simp [hr]
  rows := fun a => (h.forget account a).1
  apart := fun a => (h.forget account a).2
  past := fun r hr => h.past r ((Table.deleteWhere_sublist _ _).subset hr)

/-! ## 5. The count -/

/-- Of strikes that are a window apart one is in it at most. -/
theorem length_le_one {strikes : List Strike} (hapart : strikes.Pairwise fun x y => x.time ≤ y.time - limits.windowSecs)
    (hwindow : ∀ r ∈ strikes, now - limits.windowSecs < r.time ∧ r.time ≤ now) : strikes.length ≤ 1 := by
  match strikes with
  | [] => exact Nat.zero_le _
  | [_] => exact Nat.le_refl _
  | x :: y :: rest =>
    have hle := (List.pairwise_cons.1 hapart).1 y List.mem_cons_self
    have hx := (hwindow x List.mem_cons_self).1
    have hy := (hwindow y (List.mem_cons_of_mem _ List.mem_cons_self)).2
    omega

/-- **The table counts no more than was made**, the strikes at the sending limit as one. -/
theorem Kept.count_le (h : Kept limits s) (hnow : s.now ≤ now) (account : Int) (kind : StrikeKind) :
    s.db.count limits account kind now ≤ offences (within limits kind now (made account s.log)) := by
  let counts (x : StrikeKind × Int) : Bool := decide (x.2 > now - limits.windowSecs ∧
    (x.1 = .bounce ↔ kind = .bounce))
  let rows := (s.db.strikes.filter (·.accountId == account)).map Strike.sort
  have hsub : rows.Sublist ((made account s.log).map Made.sort).reverse := h.rows account
  have hcount : s.db.count limits account kind now = rows.countP counts := by
    rw [List.countP_map, List.countP_filter]
    refine List.countP_congr fun r _ => ?_
    have hclass : ((r.kind == .bounce) == (kind == .bounce)) = decide (r.kind = .bounce ↔ kind = .bounce) := by
      rw [Bool.eq_iff_iff, beq_iff_eq, Bool.eq_iff_iff, beq_iff_eq, beq_iff_eq, decide_eq_true_iff]
    rw [hclass]
    simp only [counts, Function.comp_apply, Bool.and_eq_true, decide_eq_true_iff]
    simp only [Strike.sort]
    tauto
  have hsplit : rows.countP counts = rows.countP (fun x => counts x && decide (x.1 ≠ .rateLimit)) +
      rows.countP (fun x => counts x && decide (x.1 = .rateLimit)) := by
    rw [List.countP_eq_countP_filter_add rows counts (fun x => decide (x.1 ≠ .rateLimit)), List.countP_filter,
      List.countP_filter]
    simp
  have hothers : rows.countP (fun x => counts x && decide (x.1 ≠ .rateLimit)) ≤
      (within limits kind now (made account s.log)).countP (·.kind ≠ .rateLimit) := by
    refine hsub.countP_le.trans ?_
    rw [List.countP_reverse, List.countP_map, within, List.countP_filter]
    refine Nat.le_of_eq (List.countP_congr fun m _ => ?_)
    simp only [counts, Function.comp_apply, Bool.and_eq_true, decide_eq_true_iff]
    exact and_comm
  have hlimit : rows.countP (fun x => counts x && decide (x.1 = .rateLimit)) ≤
      if (within limits kind now (made account s.log)).any (·.kind = .rateLimit) then 1 else 0 := by
    split
    · -- those that count are some of those that are a window apart
      let limited := s.db.strikes.filter fun r => r.accountId == account && r.kind == .rateLimit
      have hsome : rows.countP (fun x => counts x && decide (x.1 = .rateLimit)) =
          (limited.filter fun r => counts r.sort).length := by
        rw [List.countP_map, List.countP_filter, List.countP_eq_length_filter, List.filter_filter]
        congr 1
        refine List.filter_congr fun r _ => ?_
        rw [Bool.eq_iff_iff]
        simp only [Function.comp_apply, Bool.and_eq_true, decide_eq_true_iff, beq_iff_eq]
        simp only [Strike.sort]
        tauto
      rw [hsome]
      refine @length_le_one limits now _ ((h.apart account).sublist List.filter_sublist) fun r hr => ?_
      obtain ⟨hr, hcounts⟩ := List.mem_filter.1 hr
      exact ⟨(of_decide_eq_true hcounts).1, Int.le_trans (h.past r (List.mem_filter.1 hr).1) hnow⟩
    · rename_i hnone
      refine Nat.le_of_eq (List.countP_eq_zero.2 fun x hx hboth => hnone ?_)
      have hmem := List.mem_reverse.1 (hsub.subset hx)
      obtain ⟨m, hm, rfl⟩ := List.mem_map.1 hmem
      rw [Bool.and_eq_true] at hboth
      exact List.any_eq_true.2 ⟨m, List.mem_filter.2 ⟨hm, hboth.1⟩, hboth.2⟩
  rw [hcount, hsplit]
  exact Nat.add_le_add hothers hlimit

/-! ## 6. The run -/

/-- **A call keeps it**, and what it adds is one of these. -/
theorem Kept.step (h : Kept limits s) (hstep : step limits s call = some s') : Kept limits s' ∧
    (s'.log = s.log ∨ (∃ account kind, s'.log = .strike account kind s'.now :: s.log) ∨
      (∃ account, s'.log = .lifted account :: s.log) ∨
      ∃ account kind now ends, call = .record account kind now ∧
        s'.log = .suspended account kind now ends :: .strike account kind now :: s.log ∧
        Strikes.running account now s.log = false ∧
        limits.of kind ≤ offences (within limits kind now (made account (.strike account kind now :: s.log)))) := by
  unfold Strikes.step at hstep
  split at hstep
  · cases hstep
  · rename_i hlt
    have hnow : s.now ≤ call.now := Int.not_lt.1 hlt
    have hlater : Kept limits { s with now := call.now } :=
      ⟨h.running, h.rows, h.apart, fun r hr => Int.le_trans (h.past r hr) hnow⟩
    cases call with
    | record account kind now =>
      dsimp only at hstep
      split at hstep
      · cases hstep
        exact ⟨hlater, .inl rfl⟩
      · rename_i db hrecord
        cases hstep
        refine ⟨?_, .inr (.inl ⟨account, kind, rfl⟩)⟩
        rcases record_cases hrecord with ⟨-, rfl⟩ | ⟨hnone, ⟨-, rfl⟩ | ⟨started, hsome, -⟩⟩
        · exact (h.prune hnow).repeated
        · exact h.strike hnow hnone
        · cases hsome
      · rename_i db started hrecord
        cases hstep
        rcases record_cases hrecord with ⟨hno, -⟩ | ⟨hnone,
          ⟨hno, -⟩ | ⟨started', hsome, hends, hfree, hcount, rfl⟩⟩
        · cases hno
        · cases hno
        · cases hsome
          have hstruck := h.strike hnow hnone
          refine ⟨?_, .inr (.inr (.inr ⟨account, kind, now, _, rfl, rfl, ?_, ?_⟩))⟩
          · rw [hends]
            exact hstruck.suspend rfl
          · rw [← h.running]
            exact hfree
          · exact Nat.le_trans hcount (hstruck.count_le (Int.le_refl _) account kind)
    | lift account now =>
      dsimp only at hstep
      split at hstep
      · cases hstep
        exact ⟨hlater, .inl rfl⟩
      · rename_i db found hlift
        cases hstep
        refine ⟨?_, .inr (.inr (.inl ⟨account, rfl⟩))⟩
        rw [lift_cases hlift]
        exact hlater.lift account

theorem exists_of_offences {strikes : List Made} (h : 2 ≤ offences strikes) :
    ∃ m ∈ strikes, m.kind ≠ .rateLimit := by
  unfold offences at h
  have hpos : 0 < strikes.countP (·.kind ≠ .rateLimit) := by
    split at h <;> omega
  obtain ⟨m, hm, hkind⟩ := List.countP_pos_iff.1 hpos
  exact ⟨m, hm, of_decide_eq_true hkind⟩

theorem two_le_of (hlimits : 2 ≤ limits.strikes ∧ 2 ≤ limits.bounces) (kind : StrikeKind) :
    2 ≤ limits.of kind := by
  cases kind
  case bounce => exact hlimits.2
  all_goals exact hlimits.1

theorem Kept.notForLimit (h : Kept limits s) (hlimits : 2 ≤ limits.strikes ∧ 2 ≤ limits.bounces)
    (hlog : NotForLimit limits s.log) (hstep : Strikes.step limits s call = some s') :
        NotForLimit limits s'.log := by
  obtain ⟨-, hsame | ⟨account, kind, hstrike⟩ | ⟨account, hlifted⟩ | ⟨account, kind, now, ends, -,
    hstarted, -, hcount⟩⟩ :=
    h.step hstep
  · rw [hsame]
    exact hlog
  · rw [hstrike]
    exact hlog
  · rw [hlifted]
    exact hlog
  · rw [hstarted]
    exact ⟨exists_of_offences (Nat.le_trans (two_le_of hlimits kind) hcount), hlog⟩

/-- **A suspension that a clean strike starts is earned.** -/
theorem Kept.earned (h : Kept limits s) (hclean : Clean limits s call) (hlog : Earned limits s.log)
    (hstep : Strikes.step limits s call = some s') : Earned limits s'.log := by
  obtain ⟨-, hsame | ⟨account, kind, hstrike⟩ | ⟨account, hlifted⟩ | ⟨account, kind, now, ends, rfl,
    hstarted, hfree, hcount⟩⟩ :=
    h.step hstep
  · rw [hsame]
    exact hlog
  · rw [hstrike]
    exact hlog
  · rw [hlifted]
    exact hlog
  · rw [hstarted]
    refine ⟨?_, hlog⟩
    rcases hclean hfree with hnone | hfew
    · have hall : (within limits kind now (made account (.strike account kind now :: s.log))).filter
        (!·.suspended) =
          within limits kind now (made account (.strike account kind now :: s.log)) := by
        refine List.filter_eq_self.2 fun m hm => ?_
        obtain ⟨hm, hwithin⟩ := List.mem_filter.1 hm
        rw [made_strike, if_pos rfl] at hm
        rcases List.mem_cons.1 hm with rfl | hm
        · rw [hfree]
          rfl
        · rw [hnone m (List.mem_filter.2 ⟨hm, hwithin⟩)]
          rfl
      rw [hall]
      exact hcount
    · exact absurd hcount (Nat.not_le_of_lt hfew)

variable {accounts : List (Int × String)} {calls : List Call}

theorem kept_start (limits : StrikeLimits) (accounts : List (Int × String)) (now : Int) :
    Kept limits (start accounts now) where
  running := fun _ _ => rfl
  rows := fun _ => List.Sublist.refl _
  apart := fun _ => List.Pairwise.nil
  past := fun _ hr => nomatch hr

/-- **Suspensions follow the strikes.**  The sending limit alone never starts one; and in runs of
clean strikes each is earned by strikes made since the last one ended. -/
theorem suspensions_earned (hlimits : 2 ≤ limits.strikes ∧ 2 ≤ limits.bounces)
    (hrun : Trace.run (step limits) (start accounts now) calls = some s) : NotForLimit limits s.log ∧
      (Trace.Along (step limits) (Clean limits) (start accounts now) calls → Earned limits s.log) := by
  have hkept := kept_start limits accounts now
  constructor
  · exact (Trace.run_invariant' (P := fun s => Kept limits s ∧ NotForLimit limits s.log)
      (fun s call s' h hstep => ⟨(h.1.step hstep).1, h.1.notForLimit hlimits h.2 hstep⟩) ⟨hkept,
        trivial⟩ hrun).2
  · intro hclean
    exact (Trace.run_invariant (P := fun s => Kept limits s ∧ Earned limits s.log)
      (fun s call s' h hok hstep => ⟨(h.1.step hstep).1, h.1.earned hok h.2 hstep⟩) ⟨hkept,
        trivial⟩ hclean hrun).2

/-- Three strikes in an hour, or two bounces, stop an account for an hour. -/
def hourly : StrikeLimits := ⟨3, 2, 3600, 3600⟩

/-- Three strikes, one more, and two when that one has left the window. -/
def spread : List Call := [.record 1 .spam 0, .record 1 .rateLimit 10, .record 1 .rateLimit 20,
    .record 1 .complaint 30,
  .record 1 .spam 40, .record 1 .spam 3700, .record 1 .spam 3800]

theorem suspensions_earned_spread :
    (Trace.run (step hourly) (start [(1, "mini@uwu.test")] 0) spread).map (fun s => s.db.suspensions) =
        some [⟨1, 30, 3630, "complaint"⟩] ∧
      ∃ s, Trace.run (step hourly) (start [(1, "mini@uwu.test")] 0) spread = some s ∧
        NotForLimit hourly s.log ∧
        Earned hourly s.log := by
  have hsome : (Trace.run (step hourly) (start [(1, "mini@uwu.test")] 0) spread).map
    (fun s => s.db.suspensions) =
      some [⟨1, 30, 3630, "complaint"⟩] := by decide
  obtain ⟨s, hrun, -⟩ := Option.map_eq_some_iff.1 hsome
  obtain ⟨hlimit, hearned⟩ := suspensions_earned ⟨by decide, by decide⟩ hrun
  exact ⟨hsome, s, hrun, hlimit, hearned (by decide)⟩

/-- **A single new strike** behind a suspension starts another, with two that were made while it
ran. -/
theorem one_strike_suspends_again : ¬ ∀ (limits : StrikeLimits) (accounts : List (Int × String)) (now : Int)
    (calls : List Call) (s : Seen), 2 ≤ limits.strikes ∧ 2 ≤ limits.bounces →
      Trace.run (step limits) (start accounts now) calls = some s → Earned limits s.log := by
  intro h
  let calls : List Call := [.record 1 .spam 0, .record 1 .spam 1, .record 1 .spam 2, .record 1 .spam 3000,
    .record 1 .spam 3001, .record 1 .spam 3700]
  have hlog : (Trace.run (step hourly) (start [(1, "mini@uwu.test")] 0) calls).map (·.log) = some
      [.suspended 1 .spam 3700 7300, .strike 1 .spam 3700, .strike 1 .spam 3001, .strike 1 .spam 3000,
        .suspended 1 .spam 2 3602, .strike 1 .spam 2, .strike 1 .spam 1, .strike 1 .spam 0] := by decide
  obtain ⟨s, hrun, hs⟩ := Option.map_eq_some_iff.1 hlog
  have hearned := h hourly _ 0 calls s ⟨by decide, by decide⟩ hrun
  rw [hs] at hearned
  exact absurd hearned.1 (by decide)

end UwuMail.Store.Strikes
