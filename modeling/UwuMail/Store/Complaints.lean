/-
# Complaints that count

`add_abuse_report` of `abuse.rs`: a complaint of another provider counts against an account once for
each message, and once for each domain that complains in a time that is given.

The domain of a new reporter is what stands behind the LAST `@` of its address; that of one who
counted already is read with SQL behind the FIRST `@` of what is left of the address, without
control characters and cut at 300.  Where the two differ, a domain counts twice (`quoted_twice`);
where they are the same, complaints count once (`counts_once`).
-/
import UwuMail.Directory.Address
import UwuMail.Store.Sent

namespace UwuMail.Store.Complaints

open Abuse (Text bareId)
open Directory (rsplitOnce rsplitOnce_append rsplitOnce_eq_some)

/-! ## 1. The source -/

def reportsKeptSecs : Int := 180 * 24 * 3600
def reportsKeptRows : Nat := 5000

/-- Texts out of a complaint are cut to this; they are only shown. -/
def maxTextChars : Nat := 300

/-- A complaint as read from an ARF report. -/
structure NewAbuseReport where
  receivedAt : Int := 0
  domain : Text := []
  reporter : Text := []
  authenticated : Bool := false
  feedbackType : Text := []
  userAgent : Option Text := none
  sourceIp : Option Text := none
  originalMessageId : Option Text := none
  originalFrom : Option Text := none
  originalSubject : Option Text := none
  accountId : Option Int := none
  mayCount : Bool := false
  oncePerReporterSince : Option Int := none

/-- A row of `abuse_reports`. -/
structure Report where
  id : Nat
  receivedAt : Int
  domain : Text
  reporter : Text
  authenticated : Bool
  feedbackType : Text
  userAgent : Option Text
  sourceIp : Option Text
  originalMessageId : Option Text
  originalFrom : Option Text
  originalSubject : Option Text
  accountId : Option Int
  login : Option Text
  counted : Bool
deriving DecidableEq

/-- The logins of the accounts, and the complaints. -/
structure Db where
  accounts : List (Int × Text)
  reports : List Report

def cut (text : Text) : Text := (text.filter fun c => !isControl c).take maxTextChars

/-- The Message-ID of the original as it is kept. -/
def original (report : NewAbuseReport) : Option Text :=
  (report.originalMessageId.map fun id => cut (bareId id)).filter (!·.isEmpty)

/-- Behind the last `@` of the address. -/
def reporterDomain (reporter : Text) : Option Text := (rsplitOnce '@' reporter).map fun split =>
    Lib.lower split.2

/-- `lower(substr(reporter, instr(reporter, '@') + 1))`: behind the first `@`. -/
def sqlDomain (reporter : Text) : Text :=
  Lib.lower (if '@' ∈ reporter then (reporter.dropWhile (· != '@')).tail else reporter)

def repeated (report : NewAbuseReport) (db : Db) : Bool :=
  match original report with
  | some id => db.reports.any fun row => row.originalMessageId == some id && row.counted
  | none => false

def reporterCounted (report : NewAbuseReport) (db : Db) : Bool :=
  match report.oncePerReporterSince, report.accountId, reporterDomain report.reporter with
  | some since, some account, some domain => db.reports.any fun row =>
      row.accountId == some account && row.counted && decide (since ≤ row.receivedAt) &&
        sqlDomain row.reporter == domain
  | _, _, _ => false

def counts (report : NewAbuseReport) (db : Db) : Bool :=
  report.authenticated && report.mayCount && report.accountId.isSome && !repeated report db &&
    !reporterCounted report db

def login (report : NewAbuseReport) (db : Db) : Option Text :=
  report.accountId.bind fun id => (db.accounts.find? (·.1 == id)).map (·.2)

/-- The row id behind the last. -/
def nextId (db : Db) : Nat := (db.reports.map (·.id)).foldr max 0 + 1

def row (report : NewAbuseReport) (db : Db) : Report where
  id := nextId db
  receivedAt := report.receivedAt
  domain := report.domain
  reporter := cut report.reporter
  authenticated := report.authenticated
  feedbackType := cut report.feedbackType
  userAgent := report.userAgent.map cut
  sourceIp := report.sourceIp.map cut
  originalMessageId := original report
  originalFrom := report.originalFrom.map cut
  originalSubject := report.originalSubject.map cut
  accountId := report.accountId.filter fun _ => (login report db).isSome
  login := login report db
  counted := counts report db

/-- The database behind a complaint, its id and whether it counts. -/
def addAbuseReport (report : NewAbuseReport) (db : Db) : Db × Nat × Bool :=
  let reports := Table.deleteWhere (fun r => r.receivedAt < report.receivedAt - reportsKeptSecs)
    (db.reports ++ [row report db])
  ({ db with reports := Table.deleteWhere (fun r => r.id + reportsKeptRows ≤ nextId db) reports },
    nextId db, counts report db)

/-! ## 2. Runs -/

/-- A complaint, and the row it was given. -/
structure Entry where
  report : NewAbuseReport
  row : Report

structure Seen where
  db : Db
  log : List Entry

def receive (s : Seen) (report : NewAbuseReport) : Option Seen :=
  some ⟨(addAbuseReport report s.db).1, s.log ++ [⟨report, row report s.db⟩]⟩

def start (accounts : List (Int × Text)) : Seen := ⟨⟨accounts, []⟩, []⟩

/-- The state behind the complaints. -/
def after (accounts : List (Int × Text)) (reports : List NewAbuseReport) : Seen :=
  (Trace.run receive (start accounts) reports).getD (start accounts)

/-- The complaints that counted and are still kept. -/
def Seen.counted (s : Seen) : List Entry := s.log.filter fun e => e.row.counted && s.db.reports.contains e.row

/-- One complaint counts for a message. -/
def OncePerMessage (s : Seen) : Prop := ∀ x ∈ s.counted, ∀ y ∈ s.counted, ∀ id, id ≠ [] →
  x.report.originalMessageId.map bareId = some id → y.report.originalMessageId.map bareId =
    some id → x.row.id = y.row.id

/-- Of those a domain wrote about an account, none counts that comes in the time given behind one
that counted. -/
def OncePerReporter (s : Seen) : Prop := ∀ x ∈ s.counted, ∀ y ∈ s.counted, x.row.id < y.row.id →
  ∀ account domain since, x.report.accountId = some account → y.report.accountId = some account →
    reporterDomain x.report.reporter = some domain → reporterDomain y.report.reporter = some domain →
      y.report.oncePerReporterSince = some since → x.report.receivedAt < since

/-- The address has one `@`, a domain without control characters, and without them no more than 300
characters. -/
def Readable (reporter : Text) : Prop := match rsplitOnce '@' reporter with
  | some (before, domain) => '@' ∉ before ∧ domain.all (!isControl ·) = true ∧
      ((before ++ '@' :: domain).filter (!isControl ·)).length ≤ maxTextChars
  | none => True

/-- A complaint that may count is about an account that is there, of a reporter whose address can be
read, and its Message-ID is not of control characters alone. -/
def Plain (s : Seen) (report : NewAbuseReport) : Prop := report.authenticated = true → report.mayCount = true →
  (report.accountId.all fun id => s.db.accounts.any (·.1 == id)) = true ∧ Readable report.reporter ∧
    (report.originalMessageId.all fun id => bareId id == [] || (bareId id).any (!isControl ·)) = true

instance (reporter : Text) : Decidable (Readable reporter) := by
  unfold Readable
  split <;> infer_instance

instance (s : Seen) (report : NewAbuseReport) : Decidable (Plain s report) := by
  unfold Plain
  infer_instance

/-! ## 3. What is kept of a complaint -/

section
variable {s s' : Seen} {report : NewAbuseReport} {db : Db} {reporter domain id : Text} {r : Report}
  {e : Entry}

theorem at_mem_filter {text : Text} : '@' ∈ text.filter (!isControl ·) ↔ '@' ∈ text := by
  rw [List.mem_filter]
  exact and_iff_left rfl

/-- **The domain that is read back** is the one of the reporter. -/
theorem sqlDomain_cut (h : Readable reporter) (hdomain : reporterDomain reporter = some domain) :
    sqlDomain (cut reporter) = domain := by
  unfold reporterDomain at hdomain
  obtain ⟨⟨before, behind⟩, hsplit, rfl⟩ := Option.map_eq_some_iff.1 hdomain
  unfold Readable at h
  rw [hsplit] at h
  obtain ⟨hbefore, hbehind, hlength⟩ := h
  obtain ⟨rfl, -⟩ := rsplitOnce_eq_some.1 hsplit
  have hkept : cut (before ++ '@' :: behind) = before.filter (!isControl ·) ++ '@' :: behind := by
    unfold cut
    rw [List.take_of_length_le hlength, List.filter_append, List.filter_cons_of_pos rfl,
      List.filter_eq_self.2 (List.all_eq_true.1 hbehind)]
  have hnone : ∀ c ∈ before.filter (!isControl ·), (c != '@') = true := by
    intro c hc
    rw [bne_iff_ne]
    exact fun heq => hbefore (at_mem_filter.1 (heq ▸ hc))
  unfold sqlDomain
  rw [hkept, if_pos (List.mem_append_right _ List.mem_cons_self), List.dropWhile_append_of_pos hnone]
  rfl

theorem original_of_bareId (hid : report.originalMessageId.map bareId = some id)
    (hne : id.any (!isControl ·) = true) :
    original report = some (cut id) := by
  obtain ⟨raw, hraw, rfl⟩ := Option.map_eq_some_iff.1 hid
  obtain ⟨c, hc, hplain⟩ := List.any_eq_true.1 hne
  have hsome : cut (bareId raw) ≠ [] := by
    have hmem : c ∈ (bareId raw).filter (!isControl ·) := List.mem_filter.2 ⟨hc, hplain⟩
    unfold cut
    intro hnil
    rw [List.take_eq_nil_iff] at hnil
    rcases hnil with hzero | hnil
    · cases hzero
    · rw [hnil] at hmem
      cases hmem
  unfold original
  rw [hraw, Option.map_some]
  exact Option.filter_eq_some_iff.2 ⟨rfl, by simpa using hsome⟩

/-! ## 4. A complaint -/

theorem lt_nextId (h : r ∈ db.reports) : r.id < nextId db := by
  have hle : ∀ {ids : List Nat} {n : Nat}, n ∈ ids → n ≤ ids.foldr max 0 := by
    intro ids n hn
    induction ids with
    | nil => cases hn
    | cons m ids ih =>
      rw [List.foldr_cons]
      rcases List.mem_cons.1 hn with rfl | hn
      · exact Nat.le_max_left _ _
      · exact Nat.le_trans (ih hn) (Nat.le_max_right _ _)
  exact Nat.lt_succ_of_le (hle (List.mem_map_of_mem h))

/-- The rows behind a complaint: its own, and rows that were there. -/
theorem mem_addAbuseReport (h : r ∈ (addAbuseReport report db).1.reports) :
    r ∈ db.reports ∨ r = row report db := by
  unfold addAbuseReport at h
  rw [Table.mem_deleteWhere, Table.mem_deleteWhere, List.mem_append, List.mem_singleton] at h
  exact h.1.1

/-- A complaint is not forgotten at once. -/
theorem row_mem_addAbuseReport (report : NewAbuseReport) (db : Db) :
    row report db ∈ (addAbuseReport report db).1.reports := by
  unfold addAbuseReport
  rw [Table.mem_deleteWhere, Table.mem_deleteWhere]
  refine ⟨⟨List.mem_append_right _ List.mem_cons_self, ?_⟩, ?_⟩
  · change decide (report.receivedAt < report.receivedAt - reportsKeptSecs) = false
    rw [decide_eq_false_iff_not, reportsKeptSecs]
    omega
  · change decide (nextId db + reportsKeptRows ≤ nextId db) = false
    rw [decide_eq_false_iff_not, reportsKeptRows]
    omega

/-- **What a complaint that counts says**: it is about an account, and nobody counted before for its
message, nor its reporter for the account in the time given. -/
theorem counts_spec (h : counts report db = true) :
    report.authenticated = true ∧ report.mayCount = true ∧ (∃ account, report.accountId = some account) ∧
      (∀ id, original report = some id → ∀ r ∈ db.reports, r.counted = true → r.originalMessageId ≠ some id) ∧
      ∀ since account domain, report.oncePerReporterSince = some since → report.accountId = some account →
        reporterDomain report.reporter = some domain → ∀ r ∈ db.reports, r.counted = true →
          r.accountId = some account →
          sqlDomain r.reporter = domain → r.receivedAt < since := by
  unfold counts at h
  simp only [Bool.and_eq_true, Bool.not_eq_true'] at h
  obtain ⟨⟨⟨⟨hauth, hmay⟩, haccount⟩, hrepeated⟩, hreporter⟩ := h
  refine ⟨hauth, hmay, Option.isSome_iff_exists.1 haccount, fun id hid r hr hcounted hsame => ?_,
    fun since account domain hsince hto hdomain r hr hcounted hsame hname => ?_⟩
  · unfold repeated at hrepeated
    rw [hid] at hrepeated
    have hnot := List.any_eq_false.1 hrepeated r hr
    rw [hsame, hcounted] at hnot
    simp at hnot
  · unfold reporterCounted at hreporter
    rw [hsince, hto, hdomain] at hreporter
    have hnot := List.any_eq_false.1 hreporter r hr
    rw [hsame, hcounted, hname] at hnot
    simpa using hnot

/-! ## 5. Runs -/

/-- What no complaint breaks that is plain, if it may count. -/
structure Seen.Kept (s : Seen) : Prop where
  ids : ∀ e ∈ s.log, e.row.id < nextId s.db
  columns : ∀ e ∈ s.log, e.row.receivedAt = e.report.receivedAt ∧ e.row.originalMessageId = original e.report ∧
    e.row.reporter = cut e.report.reporter
  plain : ∀ e ∈ s.log, e.row.counted = true → e.row.accountId = e.report.accountId ∧
    Readable e.report.reporter ∧
    ∀ id, e.report.originalMessageId.map bareId = some id → id ≠ [] → original e.report = some (cut id)
  message : OncePerMessage s
  reporter : OncePerReporter s

theorem mem_counted : e ∈ s.counted ↔ e ∈ s.log ∧ e.row.counted = true ∧ e.row ∈ s.db.reports := by
  unfold Seen.counted
  rw [List.mem_filter, Bool.and_eq_true, List.contains_iff_mem]

/-- A complaint that counts behind another is that one, or one that counted before. -/
theorem mem_counted_receive (hs : s.Kept) (h : receive s report = some s') (he : e ∈ s'.counted) :
    e ∈ s.counted ∨ e = ⟨report, row report s.db⟩ ∧ counts report s.db = true := by
  cases h
  obtain ⟨hlog, hcounted, hrow⟩ := mem_counted.1 he
  rcases List.mem_append.1 hlog with hlog | hlog
  · rcases mem_addAbuseReport hrow with hold | hnew
    · exact .inl (mem_counted.2 ⟨hlog, hcounted, hold⟩)
    · have hlt := hs.ids e hlog
      rw [hnew] at hlt
      exact absurd hlt (Nat.lt_irrefl _)
  · obtain rfl := List.mem_singleton.1 hlog
    exact .inr ⟨rfl, hcounted⟩

theorem plain_row (hplain : Plain s report) (hcounts : counts report s.db = true) :
    (row report s.db).accountId = report.accountId ∧ Readable report.reporter ∧
      ∀ id, report.originalMessageId.map bareId = some id → id ≠ [] → original report = some (cut id) := by
  obtain ⟨hauth, hmay, ⟨account, haccount⟩, -⟩ := counts_spec hcounts
  obtain ⟨hthere, hreadable, hmessage⟩ := hplain hauth hmay
  refine ⟨?_, hreadable, fun id hid hne => ?_⟩
  · have hlogin : (login report s.db).isSome = true := by
      rw [haccount, Option.all_some] at hthere
      obtain ⟨found, hfound, hid⟩ := List.any_eq_true.1 hthere
      unfold login
      rw [haccount, Option.bind_some, Option.isSome_map, List.find?_isSome]
      exact ⟨found, hfound, hid⟩
    change report.accountId.filter _ = _
    rw [haccount]
    exact Option.filter_eq_some_iff.2 ⟨rfl, hlogin⟩
  · refine original_of_bareId hid ?_
    obtain ⟨raw, hraw, rfl⟩ := Option.map_eq_some_iff.1 hid
    rw [hraw, Option.all_some, Bool.or_eq_true, beq_iff_eq] at hmessage
    exact hmessage.resolve_left hne

theorem kept_receive (hs : s.Kept) (hplain : Plain s report) (h : receive s report = some s') : s'.Kept := by
  have hcases := fun {e} => @mem_counted_receive s s' report e hs h
  have hnew : row report s.db ∈ s'.db.reports := by
    cases h
    exact row_mem_addAbuseReport report s.db
  have hlog : ∀ {e}, e ∈ s'.log → e ∈ s.log ∨ e = ⟨report, row report s.db⟩ := by
    intro e he
    cases h
    exact (List.mem_append.1 he).imp_right List.mem_singleton.1
  refine ⟨fun e he => ?_, fun e he => ?_, fun e he hcounted => ?_, ?_, ?_⟩
  · have hlast := lt_nextId hnew
    rcases hlog he with he | rfl
    · exact Nat.lt_trans (hs.ids e he) hlast
    · exact hlast
  · rcases hlog he with he | rfl
    · exact hs.columns e he
    · exact ⟨rfl, rfl, rfl⟩
  · rcases hlog he with he | rfl
    · exact hs.plain e he hcounted
    · exact plain_row hplain hcounted
  · -- a message of the new complaint has no other that counts
    have hother : ∀ x ∈ s.counted, counts report s.db = true → ∀ id, id ≠ [] →
        x.report.originalMessageId.map bareId = some id →
            report.originalMessageId.map bareId = some id → False := by
      intro x hx hcounts id hne hxid hid
      obtain ⟨hxlog, hxcounted, hxrow⟩ := mem_counted.1 hx
      have hsame := (hs.columns x hxlog).2.1
      rw [(hs.plain x hxlog hxcounted).2.2 id hxid hne] at hsame
      exact (counts_spec hcounts).2.2.2.1 _ ((plain_row hplain hcounts).2.2 id hid hne)
        x.row hxrow hxcounted hsame
    intro x hx y hy id hne hxid hyid
    rcases hcases hx with hx | ⟨rfl, hcounts⟩
    · rcases hcases hy with hy | ⟨rfl, hcounts⟩
      · exact hs.message x hx y hy id hne hxid hyid
      · exact (hother x hx hcounts id hne hxid hyid).elim
    · rcases hcases hy with hy | ⟨rfl, -⟩
      · exact (hother y hy hcounts id hne hyid hxid).elim
      · rfl
  · intro x hx y hy hlt account domain since hxaccount hyaccount hxdomain hydomain hsince
    rcases hcases hy with hy | ⟨rfl, hcounts⟩
    · rcases hcases hx with hx | ⟨rfl, -⟩
      · exact hs.reporter x hx y hy hlt account domain since hxaccount hyaccount hxdomain hydomain hsince
      · -- nothing comes behind the new complaint
        exact absurd (Nat.lt_trans hlt (hs.ids y (mem_counted.1 hy).1)) (Nat.lt_irrefl _)
    · rcases hcases hx with hx | ⟨rfl, -⟩
      · obtain ⟨hxlog, hxcounted, hxrow⟩ := mem_counted.1 hx
        obtain ⟨hxkept, hreadable, -⟩ := hs.plain x hxlog hxcounted
        obtain ⟨hreceived, -, hreporter⟩ := hs.columns x hxlog
        have hname : sqlDomain x.row.reporter = domain := by
          rw [hreporter]
          exact sqlDomain_cut hreadable hxdomain
        have hbefore := (counts_spec hcounts).2.2.2.2 since account domain hsince hyaccount hydomain x.row hxrow hxcounted
          (hxkept.trans hxaccount) hname
        rwa [hreceived] at hbefore
      · exact absurd hlt (Nat.lt_irrefl _)

end

variable {accounts : List (Int × Text)} {reports : List NewAbuseReport}

theorem run_after (accounts : List (Int × Text)) (reports : List NewAbuseReport) :
    Trace.run receive (start accounts) reports = some (after accounts reports) := by
  have hall : ∀ s, (Trace.run receive s reports).isSome := by
    induction reports with
    | nil => exact fun _ => rfl
    | cons report reports ih => exact fun _ => ih _
  obtain ⟨s, hs⟩ := Option.isSome_iff_exists.1 (hall (start accounts))
  rw [after, hs, Option.getD_some]

/-- **Complaints count once**, for a message and for a domain that complains, in every run of
complaints that are plain if they may count. -/
theorem counts_once (hplain : Trace.Along receive Plain (start accounts) reports) :
    OncePerMessage (after accounts reports) ∧ OncePerReporter (after accounts reports) := by
  have hkept : (after accounts reports).Kept := by
    refine Trace.run_invariant (P := Seen.Kept) (fun s report s' hs hok h => kept_receive hs hok h) ?_ hplain
      (run_after accounts reports)
    exact ⟨(fun _ he => nomatch he), (fun _ he => nomatch he), (fun _ he => nomatch he), (fun _ hx => nomatch hx),
      (fun _ hx => nomatch hx)⟩
  exact ⟨hkept.message, hkept.reporter⟩

/-- The complaint number `n` of a reporter about mail of the first account. -/
def complaint (n : Nat) (reporter : String) : NewAbuseReport :=
  { receivedAt := n, reporter := reporter.toList, authenticated := true
    originalMessageId := some ('m' :: Nat.toDigits 10 n), accountId := some 1, mayCount := true
    oncePerReporterSince := some 0 }

theorem counts_once_three : OncePerMessage (after [(1, "mini@uwu.test".toList)]
      [complaint 1 "a@example.net", complaint 2 "b@Example.net", complaint 3 "a@example.com"]) ∧
    OncePerReporter (after [(1, "mini@uwu.test".toList)]
      [complaint 1 "a@example.net", complaint 2 "b@Example.net", complaint 3 "a@example.com"]) :=
  counts_once (by decide)

/-- **A quoted local part with an `@`** lets one address complain twice. -/
theorem quoted_twice : ¬ OncePerReporter (after [(1, "mini@uwu.test".toList)]
    [complaint 1 "\"a@b\"@c.example", complaint 2 "\"a@b\"@c.example"]) := by
  intro h
  let s := after [(1, "mini@uwu.test".toList)] [complaint 1 "\"a@b\"@c.example",
    complaint 2 "\"a@b\"@c.example"]
  have htwice : (s.counted.any fun x => s.counted.any fun y => decide (x.row.id < y.row.id ∧
      (x.report.accountId = some 1 ∧ y.report.accountId = some 1) ∧
      (reporterDomain x.report.reporter = some "c.example".toList ∧
        reporterDomain y.report.reporter = some "c.example".toList) ∧
      y.report.oncePerReporterSince = some 0 ∧ 0 ≤ x.report.receivedAt)) = true := by
    decide
  obtain ⟨x, hx, hany⟩ := List.any_eq_true.1 htwice
  obtain ⟨y, hy, hboth⟩ := List.any_eq_true.1 hany
  obtain ⟨hlt, ⟨hxaccount, hyaccount⟩, ⟨hxdomain, hydomain⟩, hsince, hlate⟩ := of_decide_eq_true hboth
  have hearly := h x hx y hy hlt 1 _ 0 hxaccount hyaccount hxdomain hydomain hsince
  omega

end UwuMail.Store.Complaints
