/-
# Whose message a complaint is about

`abuse.rs` notes which account sent a Message-ID and to which domains, to tell later whose message a
complaint is about and whether the one complaining got it.  A Message-ID that two accounts used
belongs to neither, and stays so until it is forgotten.  That **the account is the only one** holds
in every run.

That **every domain is one the message went to** does not: the list is cut at 2000 characters,
through the name that stands there, and what is left of a name is another name.  It holds where no
cut falls into a name (`sent_right`).

`Known` keeps beside the table what it is about: the calls that used an id since its row was last
gone.
-/
import UwuMail.Lib.Letters
import UwuMail.Lib.Pieces
import UwuMail.Lib.Table
import UwuMail.Lib.Trace
import UwuMail.Lib.Words
import UwuMail.Store.Mutate

namespace UwuMail.Store.Abuse

/-! ## 1. The source -/

abbrev Text := List Char

def sentKeptSecs : Int := 30 * 24 * 3600

/-- Enough for the recipient domains of a message to a few dozen companies. -/
def maxDomainsChars : Nat := 2000

/-- A row of `sent_message_ids`; no account once two sent the same Message-ID. -/
structure Sent where
  messageId : Text
  accountId : Option Int
  recipientDomains : Text
  sentAt : Int

structure Db where
  accounts : List Int
  sent : List Sent

/-- The arguments of `record_sent_message_id`. -/
structure Call where
  accountId : Int
  messageId : Text
  recipientDomains : List Text
  sentAt : Int
deriving DecidableEq

/-- `trim().trim_matches(['<', '>'])`. -/
def bareId (text : Text) : Text := Lib.trim (fun c => c == '<' || c == '>') (Lib.trim isWhitespace text)

def byteLen (text : Text) : Nat := (text.map Char.utf8Size).sum

/-- The order of strings, by characters as by bytes. -/
def le : Text → Text → Bool
  | [], _ => true
  | _ :: _, [] => false
  | a :: as, b :: bs => decide (a < b) || a == b && le as bs

/-- `sort`, `dedup`, `join(" ")`. -/
def joined (domains : List Text) : Text :=
  [' '].intercalate (((domains.map Lib.lower).insertionSort (le · ·)).destutter (· ≠ ·))

/-- `substr(text, 1, n)`, which ends at a NUL. -/
def substr (n : Nat) (text : Text) : Text := (text.takeWhile fun c => c != '\x00').take n

/-- The id the call is about, or nothing where it is left alone. -/
def Call.id (call : Call) : Option Text :=
  let messageId := bareId call.messageId
  if messageId.isEmpty || byteLen messageId > 255 then none else some messageId

/-- `ON CONFLICT .. DO UPDATE`. -/
def merge (call : Call) (domains : Text) (row : Sent) : Sent :=
  { row with
    accountId := if row.accountId = some call.accountId then row.accountId else none
    recipientDomains := substr maxDomainsChars (row.recipientDomains ++ ' ' :: domains)
    sentAt := call.sentAt }

def recordSentMessageId (call : Call) (db : Db) : Except StoreError Db :=
  match call.id with
  | none => .ok db
  | some messageId =>
    let domains := (joined call.recipientDomains).take maxDomainsChars
    let old (row : Sent) := row.sentAt < call.sentAt - sentKeptSecs
    if db.sent.any (·.messageId == messageId) then
      .ok { db with
        sent := Table.deleteWhere old (Table.updateWhere (·.messageId == messageId)
          (merge call domains) db.sent) }
    else if db.accounts.contains call.accountId then
      .ok { db with
        sent := Table.deleteWhere old (db.sent ++ [⟨messageId, some call.accountId, domains, call.sentAt⟩]) }
    else .error (.sqlite "FOREIGN KEY constraint failed")

def sentMessageAccount (messageId : Text) (db : Db) : Option (Int × List Text) :=
  (db.sent.find? (·.messageId == bareId messageId)).bind fun row =>
    row.accountId.map fun account => (account, Lib.words isWhitespace row.recipientDomains)

/-! ## 2. What the table is about -/

/-- The database, and for each id the calls that used it since its row was last gone. -/
structure Known where
  db : Db
  uses : Text → List Call

/-- A call; one that fails changes nothing. -/
def note (s : Known) (call : Call) : Option Known :=
  let db := match recordSentMessageId call s.db with
    | .ok db => db
    | .error _ => s.db
  some ⟨db, fun id =>
    if db.sent.any (·.messageId == id) then
      if call.id = some id then s.uses id ++ [call] else s.uses id
    else []⟩

def start (accounts : List Int) : Known := ⟨⟨accounts, []⟩, fun _ => []⟩

/-- The state behind the calls. -/
def after (accounts : List Int) (calls : List Call) : Known :=
  (Trace.run note (start accounts) calls).getD (start accounts)

/-- The account answered for `id` is the only one that used it. -/
def OnlyAccount (s : Known) : Prop := ∀ id account domains,
    sentMessageAccount id s.db = some (account, domains) →
  s.uses (bareId id) ≠ [] ∧ ∀ call ∈ s.uses (bareId id), call.accountId = account

/-- The domains answered for `id` are domains it went to. -/
def OnlyDomains (s : Known) : Prop := ∀ id account domains,
    sentMessageAccount id s.db = some (account, domains) →
  ∀ domain ∈ domains, ∃ call ∈ s.uses (bareId id), domain ∈ call.recipientDomains.map Lib.lower

/-- Whether the text goes on with a letter where it is cut, behind a letter. -/
def cutsWord (n : Nat) (text : Text) : Bool :=
  match text[n - 1]?, text[n]? with
  | some c, some d => !isWhitespace c && !isWhitespace d
  | _, _ => false

/-- No name is cut: neither the list of the call nor that list behind what is known of the id
already. -/
def Whole (s : Known) (call : Call) : Prop :=
  (∀ domain ∈ call.recipientDomains, domain.all (fun c => !isWhitespace c && c != '\x00') = true) ∧
    cutsWord maxDomainsChars (joined call.recipientDomains) = false ∧
    ∀ row ∈ s.db.sent, call.id = some row.messageId →
      cutsWord maxDomainsChars
        (row.recipientDomains ++ ' ' :: (joined call.recipientDomains).take maxDomainsChars) = false

instance (s : Known) (call : Call) : Decidable (Whole s call) := by
  unfold Whole
  infer_instance

/-! ## 3. The list of domains -/

section
variable {s s' : Known} {call : Call} {db db' : Db} {row : Sent} {domains : List Text}
  {domain text word : Text} {n : Nat}

theorem mem_joined (hwhite : ∀ domain ∈ domains, ∀ c ∈ domain, isWhitespace c = false)
    (h : word ∈ Lib.words isWhitespace (joined domains)) : word ∈ domains.map Lib.lower := by
  unfold joined at h
  rw [Lib.words_intercalate rfl, List.mem_flatMap] at h
  obtain ⟨name, hname, hword⟩ := h
  have hlower : name ∈ domains.map Lib.lower :=
    (List.mem_insertionSort _).1 ((List.destutter_sublist _ _).subset hname)
  obtain ⟨domain, hdomain, rfl⟩ := List.mem_map.1 hlower
  have hletters : ∀ c ∈ Lib.lower domain, isWhitespace c = false := by
    intro c hc
    obtain ⟨d, hd, rfl⟩ := List.mem_map.1 hc
    rw [Lib.toLower_kind isWhitespace (by decide)]
    exact hwhite domain hdomain d hd
  rw [Lib.mem_words_of_letters hletters hword]
  exact hlower

theorem isMark_nul : Lib.IsMark '\x00' := by
  unfold Lib.IsMark
  decide

theorem nul_notMem_joined (h : ∀ domain ∈ domains, '\x00' ∉ domain) : '\x00' ∉ joined domains := by
  intro hmem
  rcases Lib.mem_intercalate hmem with hmem | ⟨name, hname, hmem⟩
  · exact absurd hmem (by decide)
  · obtain ⟨domain, hdomain, rfl⟩ := List.mem_map.1
      ((List.mem_insertionSort _).1 ((List.destutter_sublist _ _).subset hname))
    exact h domain hdomain ((Lib.mem_lower_iff isMark_nul).1 hmem)

theorem substr_of_notMem (h : '\x00' ∉ text) : substr n text = text.take n := by
  unfold substr
  rw [List.takeWhile_eq_self_iff.2]
  intro c hc
  rw [bne_iff_ne]
  exact fun heq => h (heq ▸ hc)

/-- What is left in front of a cut is as it was, if the cut goes through no name. -/
theorem mem_words_take (hcut : cutsWord n text = false) (h : word ∈ Lib.words isWhitespace (text.take n)) :
    word ∈ Lib.words isWhitespace text := by
  refine Lib.mem_words_take (fun c d hc hd => ?_) h
  unfold cutsWord at hcut
  rw [hc, hd] at hcut
  rw [Bool.and_eq_false_iff, Bool.not_eq_false', Bool.not_eq_false'] at hcut
  exact hcut

/-! ## 4. A call -/

/-- **What a call leaves**: rows it is not about, and the row of its id, which is new or merged from
the one before. -/
theorem mem_recordSentMessageId (h : recordSentMessageId call db = .ok db') (hrow : row ∈ db'.sent) :
    (row ∈ db.sent ∧ call.id ≠ some row.messageId) ∨
      call.id = some row.messageId ∧
        ((∀ old ∈ db.sent, old.messageId ≠ row.messageId) ∧
            row = ⟨row.messageId, some call.accountId,
              (joined call.recipientDomains).take maxDomainsChars, call.sentAt⟩ ∨
          ∃ old ∈ db.sent, old.messageId = row.messageId ∧
            row = merge call ((joined call.recipientDomains).take maxDomainsChars) old) := by
  unfold recordSentMessageId at h
  cases hid : call.id with
  | none =>
    rw [hid] at h
    cases h
    exact .inl ⟨hrow, nofun⟩
  | some messageId =>
    rw [hid] at h
    dsimp only at h
    split at h
    · next hany =>
      cases h
      rw [Table.mem_deleteWhere, Table.mem_updateWhere] at hrow
      obtain ⟨⟨old, hold, hmerged⟩, -⟩ := hrow
      by_cases hkey : old.messageId = messageId
      · rw [if_pos (beq_iff_eq.2 hkey)] at hmerged
        subst hmerged
        exact .inr ⟨congrArg some hkey.symm, .inr ⟨old, hold, rfl, rfl⟩⟩
      · rw [if_neg fun hbeq => hkey (beq_iff_eq.1 hbeq)] at hmerged
        subst hmerged
        exact .inl ⟨hold, fun heq => hkey (Option.some.inj heq).symm⟩
    · next hnone =>
      have hfresh : ∀ old ∈ db.sent, old.messageId ≠ messageId := by
        intro old hold heq
        exact hnone (List.any_eq_true.2 ⟨old, hold, beq_iff_eq.2 heq⟩)
      split at h
      · cases h
        rw [Table.mem_deleteWhere, List.mem_append, List.mem_singleton] at hrow
        rcases hrow.1 with hold | rfl
        · exact .inl ⟨hold, fun heq => hfresh row hold (Option.some.inj heq).symm⟩
        · exact .inr ⟨rfl, .inl ⟨hfresh, rfl⟩⟩
      · cases h

/-- A call that fails is about an id that no row has. -/
theorem notMem_of_error {error : StoreError} (h : recordSentMessageId call db = .error error)
    (hrow : row ∈ db.sent) :
    call.id ≠ some row.messageId := by
  intro hid
  unfold recordSentMessageId at h
  rw [hid] at h
  dsimp only at h
  have hany : db.sent.any (·.messageId == row.messageId) = true :=
    List.any_eq_true.2 ⟨row, hrow, beq_iff_eq.2 rfl⟩
  rw [if_pos hany] at h
  cases h

/-- The two ways to a row of the state behind a call. -/
theorem mem_note (h : note s call = some s') (hrow : row ∈ s'.db.sent) :
    (row ∈ s.db.sent ∧ s'.uses row.messageId = s.uses row.messageId) ∨
      s'.uses row.messageId = s.uses row.messageId ++ [call] ∧ call.id = some row.messageId ∧
        ((∀ old ∈ s.db.sent, old.messageId ≠ row.messageId) ∧
            row = ⟨row.messageId, some call.accountId,
              (joined call.recipientDomains).take maxDomainsChars, call.sentAt⟩ ∨
          ∃ old ∈ s.db.sent, old.messageId = row.messageId ∧
            row = merge call ((joined call.recipientDomains).take maxDomainsChars) old) := by
  cases h
  have hany : ∀ {sent : List Sent}, row ∈ sent → (sent.any (·.messageId == row.messageId)) = true :=
    fun hmem => List.any_eq_true.2 ⟨row, hmem, beq_iff_eq.2 rfl⟩
  dsimp only at hrow ⊢
  rw [if_pos (hany hrow)]
  cases hcall : recordSentMessageId call s.db with
  | ok db =>
    rw [hcall] at hrow
    rcases mem_recordSentMessageId hcall hrow with ⟨hold, hid⟩ | ⟨hid, hrest⟩
    · exact .inl ⟨hold, if_neg hid⟩
    · exact .inr ⟨if_pos hid, hid, hrest⟩
  | error error =>
    rw [hcall] at hrow
    exact .inl ⟨hrow, if_neg (notMem_of_error hcall hrow)⟩

/-! ## 5. Runs -/

/-- What no call breaks. -/
structure Known.Kept (s : Known) : Prop where
  forgotten : ∀ id, (∀ row ∈ s.db.sent, row.messageId ≠ id) → s.uses id = []
  used : ∀ row ∈ s.db.sent, s.uses row.messageId ≠ []
  account : ∀ row ∈ s.db.sent, ∀ account, row.accountId = some account →
    ∀ call ∈ s.uses row.messageId, call.accountId = account

theorem kept_note (hs : s.Kept) (h : note s call = some s') : s'.Kept := by
  refine ⟨fun id hnone => ?_, fun row hrow => ?_, fun row hrow account haccount => ?_⟩
  · cases h
    refine if_neg fun hany => ?_
    obtain ⟨row, hrow, hid⟩ := List.any_eq_true.1 hany
    exact hnone row hrow (beq_iff_eq.1 hid)
  · rcases mem_note h hrow with ⟨hold, huses⟩ | ⟨huses, -⟩
    · rw [huses]
      exact hs.used row hold
    · rw [huses]
      exact List.append_ne_nil_of_right_ne_nil _ (List.cons_ne_nil _ _)
  · rcases mem_note h hrow with ⟨hold, huses⟩ | ⟨huses, -, ⟨hfresh, hnew⟩ | ⟨old, hold, hid, hmerged⟩⟩
    · rw [huses]
      exact hs.account row hold account haccount
    · rw [huses, hs.forgotten _ hfresh]
      rw [hnew] at haccount
      cases haccount
      exact fun c hc => List.mem_singleton.1 hc ▸ rfl
    · -- the account stays only where the one before is the one of the call
      have hsame : old.accountId = some call.accountId ∧ old.accountId = some account := by
        rw [hmerged] at haccount
        unfold merge at haccount
        split at haccount
        · next hsome => exact ⟨hsome, haccount⟩
        · cases haccount
      rw [huses, List.forall_mem_append, List.forall_mem_singleton, ← hid]
      exact ⟨hs.account old hold account hsame.2, Option.some.inj (hsame.1.symm.trans hsame.2)⟩

/-- What no call breaks that cuts no name. -/
def Known.Named (s : Known) : Prop := ∀ row ∈ s.db.sent, '\x00' ∉ row.recipientDomains ∧
  ∀ word ∈ Lib.words isWhitespace row.recipientDomains,
    ∃ call ∈ s.uses row.messageId, word ∈ call.recipientDomains.map Lib.lower

theorem named_note (hs : s.Named) (hwhole : Whole s call) (h : note s call = some s') : s'.Named := by
  obtain ⟨hnames, hlist, hmerge⟩ := hwhole
  have hplain : ∀ domain ∈ call.recipientDomains, ∀ c ∈ domain, isWhitespace c = false ∧ c ≠ '\x00' := by
    intro domain hdomain c hc
    have hboth := List.all_eq_true.1 (hnames domain hdomain) c hc
    rwa [Bool.and_eq_true, Bool.not_eq_true', bne_iff_ne] at hboth
  have hnul : '\x00' ∉ (joined call.recipientDomains).take maxDomainsChars := fun hmem =>
    nul_notMem_joined (fun domain hdomain hc => (hplain domain hdomain _ hc).2 rfl) (List.mem_of_mem_take hmem)
  have hnew : ∀ word ∈ Lib.words isWhitespace ((joined call.recipientDomains).take maxDomainsChars),
      word ∈ call.recipientDomains.map Lib.lower := fun word hword =>
    mem_joined (fun domain hdomain c hc => (hplain domain hdomain c hc).1) (mem_words_take hlist hword)
  intro row hrow
  rcases mem_note h hrow with ⟨hold, huses⟩ | ⟨huses, hid, ⟨-, hfresh⟩ | ⟨old, hold, hkey, hmerged⟩⟩
  · rw [huses]
    exact hs row hold
  · rw [huses, hfresh]
    refine ⟨hnul, fun word hword => ⟨call, List.mem_append_right _ List.mem_cons_self, hnew word hword⟩⟩
  · obtain ⟨holdNul, holdWords⟩ := hs old hold
    have hjoined : '\x00' ∉ old.recipientDomains ++
        ' ' :: (joined call.recipientDomains).take maxDomainsChars := by
      rw [List.mem_append, List.mem_cons, not_or, not_or]
      exact ⟨holdNul, by decide, hnul⟩
    have htext : row.recipientDomains =
        (old.recipientDomains ++ ' ' :: (joined call.recipientDomains).take maxDomainsChars).take maxDomainsChars := by
      rw [hmerged]
      exact substr_of_notMem hjoined
    rw [huses, htext]
    refine ⟨fun hmem => hjoined (List.mem_of_mem_take hmem), fun word hword => ?_⟩
    have hwords := mem_words_take (hmerge old hold (by rw [hkey, hid])) hword
    rw [Lib.words_append_break rfl, List.mem_append] at hwords
    rcases hwords with hwords | hwords
    · obtain ⟨c, hc, hdomain⟩ := holdWords word hwords
      rw [hkey] at hc
      exact ⟨c, List.mem_append_left _ hc, hdomain⟩
    · exact ⟨call, List.mem_append_right _ List.mem_cons_self, hnew word hwords⟩

theorem exists_row {id : Text} {account : Int} (h : sentMessageAccount id s.db = some (account, domains)) :
    ∃ row ∈ s.db.sent, row.messageId = bareId id ∧ row.accountId = some account ∧
      domains = Lib.words isWhitespace row.recipientDomains := by
  unfold sentMessageAccount at h
  obtain ⟨row, hfind, h⟩ := Option.bind_eq_some_iff.1 h
  obtain ⟨account', haccount, h⟩ := Option.map_eq_some_iff.1 h
  cases h
  have hid := List.find?_some hfind
  exact ⟨row, List.mem_of_find?_eq_some hfind, beq_iff_eq.1 hid, haccount, rfl⟩

theorem Known.Kept.onlyAccount (hs : s.Kept) : OnlyAccount s := by
  intro id account domains h
  obtain ⟨row, hrow, hid, haccount, -⟩ := exists_row h
  rw [← hid]
  exact ⟨hs.used row hrow, hs.account row hrow account haccount⟩

theorem Known.Named.onlyDomains (hs : s.Named) : OnlyDomains s := by
  intro id account domains h domain hdomain
  obtain ⟨row, hrow, hid, -, rfl⟩ := exists_row h
  rw [← hid]
  exact (hs row hrow).2 domain hdomain

end

variable {accounts : List Int} {calls : List Call} {s : Known}

theorem run_after (accounts : List Int) (calls : List Call) :
    Trace.run note (start accounts) calls = some (after accounts calls) := by
  have hall : ∀ s, (Trace.run note s calls).isSome := by
    induction calls with
    | nil => exact fun _ => rfl
    | cons call calls ih => exact fun _ => ih _
  obtain ⟨s, hs⟩ := Option.isSome_iff_exists.1 (hall (start accounts))
  rw [after, hs, Option.getD_some]

/-- **Whose message it is, and to whom it went**: the account in every run, the domains in every run
in which no cut goes through a name. -/
theorem sent_right (accounts : List Int) (calls : List Call) :
    OnlyAccount (after accounts calls) ∧
      (Trace.Along note Whole (start accounts) calls → OnlyDomains (after accounts calls)) := by
  have hrun := run_after accounts calls
  constructor
  · refine (Trace.run_invariant' (P := Known.Kept) (fun s call s' hs h => kept_note hs h) ?_ hrun).onlyAccount
    exact ⟨fun _ _ => rfl, (fun _ hrow => nomatch hrow), (fun _ hrow => nomatch hrow)⟩
  · intro hwhole
    refine (Trace.run_invariant (P := Known.Named) ?_ ?_ hwhole hrun).onlyDomains
    · exact fun s call s' hs hok h => named_note hs hok h
    · exact fun _ hrow => nomatch hrow

/-- Two calls of one account for an id of its own. -/
theorem sent_right_twice : OnlyDomains (after [1] [⟨1, "same@uwu.test".toList, ["example.net".toList], 0⟩,
    ⟨1, "<same@uwu.test>".toList, ["Example.com".toList], 1⟩]) :=
  (sent_right _ _).2 (by decide)

/-! ## 6. A name that is cut -/

/-- Ten names of 200 characters; the last ends with `example.attacker`. -/
def tenNames : List Text :=
  ["0", "1", "2", "3", "4", "5", "6", "7", "8"].map (fun digit =>
      (List.replicate 98 "a.".toList).flatten ++ digit.toList ++ ".de".toList) ++
    [(List.replicate 92 "z.".toList).flatten ++ "example.attacker".toList]

/-- **A name that no message went to**: the tenth without its last nine characters. -/
theorem name_cut : ¬ OnlyDomains (after [1] [⟨1, "<abc@uwu.test>".toList, tenNames, 0⟩]) := by
  intro h
  have hanswer : (sentMessageAccount "abc@uwu.test".toList
    (after [1] [⟨1, "<abc@uwu.test>".toList, tenNames, 0⟩]).db).any
      (fun answer => answer.2.any fun domain => !(tenNames.map Lib.lower).contains domain) = true := by
    decide +kernel
  obtain ⟨⟨account, domains⟩, hsome, hany⟩ := (Option.any_eq_true _ _).1 hanswer
  obtain ⟨domain, hdomain, hnot⟩ := List.any_eq_true.1 hany
  obtain ⟨call, hcall, hname⟩ := h _ account domains hsome domain hdomain
  have huses : (after [1] [⟨1, "<abc@uwu.test>".toList, tenNames, 0⟩]).uses (bareId "abc@uwu.test".toList) =
      [⟨1, "<abc@uwu.test>".toList, tenNames, 0⟩] := by
    decide +kernel
  rw [huses, List.mem_singleton] at hcall
  subst hcall
  rw [List.contains_iff_mem.2 hname] at hnot
  cases hnot

end UwuMail.Store.Abuse
