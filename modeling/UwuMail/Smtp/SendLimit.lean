/-
# How much one account may send

`send_limit.rs` counts the recipients of every submission per account and minute, and forgets
minutes that are a day old: each time an account sends, from the front of its own list, and once an
hour in all the lists there are.

**It answers as if nothing were ever forgotten** (`take_spec`): the model of the code and a `ledger`
that keeps every submission give the same answers, and in no hour or day of clock minutes is more
accepted than the limit.

The first minute of the epoch is the exception.  There the start of the hour and of the day, which
cannot lie before it, are that minute itself, and what is sent in it is not counted; a clock that
stands before 1970 is read as zero, so then nothing is counted at all (`nothing_counts_at_zero`).
And a limit of `usize::MAX` is never exceeded by a sum that ends there.
-/
import UwuMail.Lib.Dict
import UwuMail.Lib.Trace

namespace UwuMail.SendLimit

/-! ## 1. The source -/

/-- How many values a `usize` has. -/
def usize : Nat := 2 ^ 64

/-- Addition of `usize`, as a release build does it. -/
def add (a b : Nat) : Nat := (a + b) % usize

def saturatingAdd (a b : Nat) : Nat := min (a + b) (usize - 1)

def minuteSecs : Nat := 60
def hourSecs : Nat := 3600
def daySecs : Nat := 24 * hourSecs

/-- Which limit a submission would go over. -/
inductive Window
  | hour
  | day
deriving DecidableEq

/-- Recipients per minute (the minute since the epoch), oldest first. -/
abbrev Sent := List (Nat × Nat)

structure State where
  accounts : Dict Int Sent := ∅
  /-- When accounts that sent nothing for a day were last forgotten. -/
  sweptAt : Nat := 0

def forgetOld (sent : Sent) (now : Nat) : Sent :=
  sent.dropWhile fun e => e.1 ≤ (now - daySecs) / minuteSecs

/-- `retain`, which forgets and then asks. -/
def State.sweep (s : State) (now : Nat) : State :=
  if now - s.sweptAt ≥ hourSecs then
    { accounts := (s.accounts.map fun sent => forgetOld sent now).retain fun _ sent => !sent.isEmpty
      sweptAt := now }
  else s

/-- The sum of the counts in the minutes behind `start`. -/
def countAfter (start : Nat) (sent : Sent) : Nat :=
  sent.foldl (fun sum e => if e.1 > start then add sum e.2 else sum) 0

def countAll (sent : Sent) : Nat := sent.foldl (fun sum e => add sum e.2) 0

/-- The last entry grows, or there is a new one. -/
def count (minute recipients : Nat) : Sent → Sent
  | [] => [(minute, recipients)]
  | [(last, count)] =>
    if last = minute then [(last, add count recipients)] else [(last, count), (minute, recipients)]
  | e :: sent => e :: count minute recipients sent

/-- A submission of an account, `now` seconds since the epoch. -/
structure Take where
  account : Int
  recipients : Nat
  now : Nat

/-- What an account may send; 0 means no limit. -/
structure Limits where
  perHour : Nat
  perDay : Nat

def take (limits : Limits) (t : Take) (s : State) : State × Except Window Unit :=
  let s := s.sweep t.now
  let sent := forgetOld ((s.accounts.lookup t.account).getD []) t.now
  let inHour := countAfter ((t.now - hourSecs) / minuteSecs) sent
  let inDay := countAll sent
  if limits.perHour > 0 ∧ saturatingAdd inHour t.recipients > limits.perHour then
    ({ s with accounts := s.accounts.insert t.account sent }, .error .hour)
  else if limits.perDay > 0 ∧ saturatingAdd inDay t.recipients > limits.perDay then
    ({ s with accounts := s.accounts.insert t.account sent }, .error .day)
  else
    ({ s with accounts := s.accounts.insert t.account (count (t.now / minuteSecs) t.recipients sent) }, .ok ())

/-! ## 2. The ledger -/

/-- What the account was let send since the minute `first`, in all that was ever accepted. -/
def sentSince (account : Int) (first : Nat) (accepted : List Take) : Nat :=
  ((accepted.filter fun t => t.account = account ∧ first ≤ t.now / minuteSecs).map (·.recipients)).sum

/-- What it was let send in the last `minutes` clock minutes, that of `now` included. -/
def lately (account : Int) (minutes now : Nat) (accepted : List Take) : Nat :=
  sentSince account (now / minuteSecs + 1 - minutes) accepted

/-- What the limits say to a submission, where nothing is forgotten. -/
def answer (limits : Limits) (accepted : List Take) (t : Take) : Except Window Unit :=
  if limits.perHour > 0 ∧ lately t.account 60 t.now accepted + t.recipients > limits.perHour then .error .hour
  else if limits.perDay > 0 ∧ lately t.account 1440 t.now accepted + t.recipients > limits.perDay
    then .error .day
  else .ok ()

/-- What was accepted, and the answers. -/
structure Ledger where
  accepted : List Take := []
  answers : List (Except Window Unit) := []

def Ledger.take (limits : Limits) (l : Ledger) (t : Take) : Ledger where
  accepted := if answer limits l.accepted t = .ok () then l.accepted ++ [t] else l.accepted
  answers := l.answers ++ [answer limits l.accepted t]

/-- The answers of a server that keeps every submission. -/
def ledger (limits : Limits) (takes : List Take) : Ledger := takes.foldl (Ledger.take limits) {}

/-- The counts as they stand, the time of the last submission, and the answers that were given. -/
structure Counted where
  state : State := {}
  now : Nat := 0
  answers : List (Except Window Unit) := []

/-- The next submission; time does not go back. -/
def step (limits : Limits) (s : Counted) (t : Take) : Option Counted :=
  if t.now < s.now then none
  else
    let (state, answer) := take limits t s.state
    some { state, now := t.now, answers := s.answers ++ [answer] }

/-- In no hour and no day of clock minutes is more accepted than the limit. -/
def Within (limits : Limits) (accepted : List Take) : Prop := ∀ account minute,
  (limits.perHour > 0 →
    sentSince account minute (accepted.filter fun t => t.now / minuteSecs < minute + 60) ≤ limits.perHour) ∧
  (limits.perDay > 0 →
    sentSince account minute (accepted.filter fun t => t.now / minuteSecs < minute + 1440) ≤ limits.perDay)

/-- The first minute of the epoch is over, and no limit is `usize::MAX`. -/
def Counts (limits : Limits) (_ : Counted) (t : Take) : Prop :=
  minuteSecs ≤ t.now ∧ limits.perHour < usize - 1 ∧ limits.perDay < usize - 1

instance (limits : Limits) (s : Counted) (t : Take) : Decidable (Counts limits s t) :=
  inferInstanceAs (Decidable (_ ∧ _ ∧ _))

/-! ## 3. One list -/

section
variable {sent : Sent} {account : Int} {now now' minute recipients c m n : Nat}
  {accepted : List Take} {t : Take} {limits : Limits}

/-- The sum of the counts behind `c`, as a number that does not wrap. -/
def sumAfter (c : Nat) (sent : Sent) : Nat := ((sent.filter fun e => c < e.1).map (·.2)).sum

theorem sumAfter_cons (c : Nat) (e : Nat × Nat) (sent : Sent) :
    sumAfter c (e :: sent) = (if c < e.1 then e.2 else 0) + sumAfter c sent := by
  unfold sumAfter
  by_cases h : c < e.1
  · rw [List.filter_cons_of_pos (by simpa using h), List.map_cons, List.sum_cons, if_pos h]
  · rw [List.filter_cons_of_neg (by simpa using h), if_neg h, Nat.zero_add]

theorem countAfter_eq (c : Nat) (sent : Sent) : countAfter c sent = sumAfter c sent % usize := by
  have hsum : ∀ (sent : Sent) (sum : Nat), sum < usize →
      sent.foldl (fun sum e => if e.1 > c then add sum e.2
          else sum) sum = (sum + sumAfter c sent) % usize := by
    intro sent
    induction sent with
    | nil => exact fun sum h => (Nat.mod_eq_of_lt h).symm
    | cons e sent ih =>
      intro sum h
      rw [List.foldl_cons, sumAfter_cons]
      by_cases he : c < e.1
      · rw [if_pos he, if_pos he, add, ih _ (Nat.mod_lt _ (by decide)), Nat.mod_add_mod, Nat.add_assoc]
      · rw [if_neg he, if_neg he, ih _ h, Nat.zero_add]
  unfold countAfter
  rw [hsum sent 0 (by decide), Nat.zero_add]

theorem countAll_eq (h : ∀ e ∈ sent, c < e.1) : countAll sent = sumAfter c sent % usize := by
  rw [← countAfter_eq]
  unfold countAll countAfter
  exact List.foldl_ext _ _ _ fun sum e he => (if_pos (h e he)).symm

/-- What is forgotten counts nothing from the start of the day on. -/
theorem sumAfter_forgetOld (h : (now - daySecs) / minuteSecs ≤ c) :
    sumAfter c (forgetOld sent now) = sumAfter c sent := by
  unfold forgetOld
  induction sent with
  | nil => rfl
  | cons e sent ih =>
    rw [List.dropWhile_cons]
    split
    · rename_i he
      have hle : ¬ c < e.1 := by
        have := of_decide_eq_true he
        omega
      rw [ih, sumAfter_cons, if_neg hle, Nat.zero_add]
    · rfl

theorem forgetOld_sublist (sent : Sent) (now : Nat) : (forgetOld sent now).Sublist sent :=
  (List.dropWhile_suffix _).sublist

/-- In a list that is in order nothing is left of the days before. -/
theorem lt_of_mem_forgetOld (hsorted : sent.Pairwise (·.1 < ·.1)) {e : Nat × Nat}
    (he : e ∈ forgetOld sent now) :
    (now - daySecs) / minuteSecs < e.1 := by
  induction sent with
  | nil => cases he
  | cons a sent ih =>
    obtain ⟨ha, hsent⟩ := List.pairwise_cons.1 hsorted
    rw [forgetOld, List.dropWhile_cons] at he
    split at he
    · exact ih hsent he
    · rename_i hnot
      have hlt : (now - daySecs) / minuteSecs < a.1 := by simpa using hnot
      rcases List.mem_cons.1 he with rfl | he
      · exact hlt
      · exact Nat.lt_trans hlt (ha e he)

theorem sumAfter_count (c minute recipients : Nat) (sent : Sent) : sumAfter c (count minute recipients sent) ≡
    sumAfter c sent + (if c < minute then recipients else 0) [MOD usize] := by
  fun_induction count minute recipients sent with
  | case1 =>
    rw [sumAfter_cons, Nat.add_comm]
  | case2 count =>
    rw [sumAfter_cons, sumAfter_cons, add]
    by_cases h : c < minute
    · simp only [if_pos h]
      exact ((Nat.mod_modEq _ _).add_right _).trans (by rw [Nat.add_right_comm])
    · simp only [if_neg h]
      rfl
  | case3 last count h =>
    rw [sumAfter_cons, sumAfter_cons, sumAfter_cons, Nat.add_assoc]
    exact Nat.ModEq.add_left _ (by rw [Nat.add_comm])
  | case4 e sent hne ih =>
    rw [sumAfter_cons, sumAfter_cons, Nat.add_assoc]
    exact ih.add_left _

theorem mem_count {e : Nat × Nat} (he : e ∈ count minute recipients sent) :
    e.1 = minute ∨ ∃ a ∈ sent, a.1 = e.1 := by
  fun_induction count minute recipients sent with
  | case1 => exact .inl (congrArg Prod.fst (List.mem_singleton.1 he))
  | case2 count => exact .inl (congrArg Prod.fst (List.mem_singleton.1 he))
  | case3 last count h =>
    rcases List.mem_cons.1 he with rfl | he
    · exact .inr ⟨_, List.mem_cons_self, rfl⟩
    · exact .inl (congrArg Prod.fst (List.mem_singleton.1 he))
  | case4 a sent hne ih =>
    rcases List.mem_cons.1 he with rfl | he
    · exact .inr ⟨_, List.mem_cons_self, rfl⟩
    · rcases ih he with h | ⟨b, hb, h⟩
      · exact .inl h
      · exact .inr ⟨b, List.mem_cons_of_mem _ hb, h⟩

/-- The minute that is counted now is the last. -/
theorem sorted_count (hsorted : sent.Pairwise (·.1 < ·.1)) (hpast : ∀ e ∈ sent, e.1 ≤ minute) :
    (count minute recipients sent).Pairwise (·.1 < ·.1) := by
  fun_induction count minute recipients sent with
  | case1 => exact List.pairwise_singleton _ _
  | case2 count => exact List.pairwise_singleton _ _
  | case3 last count h =>
    refine List.pairwise_cons.2 ⟨fun e he => ?_, List.pairwise_singleton _ _⟩
    obtain rfl := List.mem_singleton.1 he
    exact lt_of_le_of_ne (hpast _ List.mem_cons_self) h
  | case4 a sent hne ih =>
    obtain ⟨ha, hsent⟩ := List.pairwise_cons.1 hsorted
    refine List.pairwise_cons.2 ⟨fun e he => ?_, ih hsent fun e he => hpast e (List.mem_cons_of_mem _ he)⟩
    rcases mem_count he with h | ⟨b, hb, h⟩
    · -- behind `a` there is another entry, which is not later than the minute
      obtain ⟨b, hb⟩ := List.exists_mem_of_ne_nil sent fun hnil => hne a.1 a.2 rfl hnil
      rw [h]
      exact Nat.lt_of_lt_of_le (ha b hb) (hpast b (List.mem_cons_of_mem _ hb))
    · rw [← h]
      exact ha b hb

/-! ## 4. What is kept -/

theorem sentSince_snoc (account : Int) (first : Nat) (accepted : List Take) (t : Take) :
    sentSince account first (accepted ++ [t]) = sentSince account first accepted +
      if t.account = account ∧ first ≤ t.now / minuteSecs then t.recipients else 0 := by
  unfold sentSince
  rw [List.filter_append, List.map_append, List.sum_append]
  congr 1
  by_cases h : t.account = account ∧ first ≤ t.now / minuteSecs
  · rw [if_pos h, List.filter_cons_of_pos (by simpa using h)]
    rfl
  · rw [if_neg h, List.filter_cons_of_neg (by simpa using h)]
    rfl

/-- Fewer submissions, or fewer minutes, hold no more. -/
theorem sentSince_le {less : List Take} {first : Nat} (hsub : less.Sublist accepted) (h : first ≤ m) :
    sentSince account m less ≤ sentSince account first accepted := by
  unfold sentSince
  refine List.Sublist.sum_le_sum (List.Sublist.map _ ?_) fun _ _ => Nat.zero_le _
  refine List.Sublist.trans ?_ (hsub.filter _)
  refine List.monotone_filter_right less fun t ht => ?_
  obtain ⟨haccount, hm⟩ := of_decide_eq_true ht
  exact decide_eq_true ⟨haccount, Nat.le_trans h hm⟩

/-- A list holds what the account was let send since the day began. -/
structure Fits (sent : Sent) (account : Int) (now : Nat) (accepted : List Take) : Prop where
  sorted : sent.Pairwise (·.1 < ·.1)
  past : ∀ e ∈ sent, e.1 ≤ now / minuteSecs
  sum : ∀ c, (now - daySecs) / minuteSecs ≤ c →
    sumAfter c sent ≡ sentSince account (c + 1) accepted [MOD usize]

theorem Fits.later (h : Fits sent account now accepted) (hle : now ≤ now') :
    Fits sent account now' accepted where
  sorted := h.sorted
  past := fun e he => Nat.le_trans (h.past e he) (Nat.div_le_div_right hle)
  sum := fun c hc => h.sum c (Nat.le_trans (Nat.div_le_div_right (Nat.sub_le_sub_right hle _)) hc)

theorem Fits.forgetOld (h : Fits sent account now accepted) :
    Fits (forgetOld sent now) account now accepted where
  sorted := h.sorted.sublist (forgetOld_sublist sent now)
  past := fun e he => h.past e ((forgetOld_sublist sent now).subset he)
  sum := fun c hc => by
    rw [sumAfter_forgetOld hc]
    exact h.sum c hc

theorem Fits.count (h : Fits sent t.account t.now accepted) :
    Fits (count (t.now / minuteSecs) t.recipients sent) t.account t.now (accepted ++ [t]) where
  sorted := sorted_count h.sorted h.past
  past := fun e he => by
    rcases mem_count he with heq | ⟨a, ha, heq⟩
    · exact Nat.le_of_eq heq
    · rw [← heq]
      exact h.past a ha
  sum := fun c hc => by
    rw [sentSince_snoc]
    refine (sumAfter_count c _ _ _).trans ((h.sum c hc).add ?_)
    simp only [true_and, Nat.succ_le_iff, Nat.ModEq.refl]

/-- A submission of another account does not matter. -/
theorem Fits.other (h : Fits sent account now accepted) (hne : t.account ≠ account) :
    Fits sent account now (accepted ++ [t]) where
  sorted := h.sorted
  past := h.past
  sum := fun c hc => by
    rw [sentSince_snoc, if_neg fun hand => hne hand.1, Nat.add_zero]
    exact h.sum c hc

/-- The start of the hour and of the day, as the source reads it, is that of the ledger: in the
first minute of the epoch nothing was accepted. -/
theorem sentSince_start (hfirst : ∀ t ∈ accepted, minuteSecs ≤ t.now) :
    sentSince account ((now - minuteSecs * n) / minuteSecs + 1) accepted = lately account n now accepted := by
  unfold lately sentSince
  have hfilter : ∀ t ∈ accepted, decide (t.account = account ∧
    (now - minuteSecs * n) / minuteSecs + 1 ≤ t.now / minuteSecs) =
      decide (t.account = account ∧ now / minuteSecs + 1 - n ≤ t.now / minuteSecs) := by
    intro t ht
    have hone := hfirst t ht
    unfold minuteSecs at hone ⊢
    rw [decide_eq_decide]
    omega
  rw [List.filter_congr hfilter]

/-! ## 5. The run -/

theorem le_of_answer (h : answer limits accepted t = .ok ()) :
    (limits.perHour > 0 → lately t.account 60 t.now accepted + t.recipients ≤ limits.perHour) ∧
      (limits.perDay > 0 → lately t.account 1440 t.now accepted + t.recipients ≤ limits.perDay) := by
  unfold answer at h
  split at h
  · cases h
  · rename_i hhour
    split at h
    · cases h
    · rename_i hday
      exact ⟨fun hpos => Nat.le_of_not_lt fun hlt => hhour ⟨hpos, hlt⟩,
        fun hpos => Nat.le_of_not_lt fun hlt => hday ⟨hpos, hlt⟩⟩

/-- A window holds what it held, or what the last of it held and the new submission. -/
theorem window_snoc {limit : Nat} (hold : sentSince account m (accepted.filter fun t =>
    t.now / minuteSecs < m + n) ≤ limit)
    (hnew : lately t.account n t.now accepted + t.recipients ≤ limit) :
    sentSince account m ((accepted ++ [t]).filter fun t => t.now / minuteSecs < m + n) ≤ limit := by
  rw [List.filter_append]
  by_cases hin : t.now / minuteSecs < m + n
  · rw [List.filter_cons_of_pos (by simpa using hin), List.filter_nil, sentSince_snoc]
    by_cases hmine : t.account = account ∧ m ≤ t.now / minuteSecs
    · obtain ⟨rfl, hm⟩ := hmine
      have hle : sentSince t.account m (accepted.filter fun t => t.now / minuteSecs < m + n) ≤
          lately t.account n t.now accepted := by
        refine sentSince_le List.filter_sublist ?_
        omega
      rw [if_pos ⟨rfl, hm⟩]
      exact Nat.le_trans (Nat.add_le_add_right hle _) hnew
    · rw [if_neg hmine]
      exact hold
  · rw [List.filter_cons_of_neg (by simpa using hin), List.filter_nil, List.append_nil]
    exact hold

theorem within_snoc (h : Within limits accepted) (hok : answer limits accepted t = .ok ()) :
    Within limits (accepted ++ [t]) := by
  obtain ⟨hhour, hday⟩ := le_of_answer hok
  exact fun account minute => ⟨fun hpos => window_snoc ((h account minute).1 hpos) (hhour hpos),
    fun hpos => window_snoc ((h account minute).2 hpos) (hday hpos)⟩

/-- The last window is one of those that hold no more than the limit. -/
theorem lately_le {limit : Nat} (hpast : ∀ t ∈ accepted, t.now ≤ now)
    (h : ∀ minute, sentSince account minute (accepted.filter fun t => t.now / minuteSecs < minute + n) ≤ limit) :
    lately account n now accepted ≤ limit := by
  have hall : accepted.filter (fun t => t.now / minuteSecs < now / minuteSecs + 1 - n + n) = accepted := by
    refine List.filter_eq_self.2 fun t ht => decide_eq_true ?_
    have hle := Nat.div_le_div_right (c := minuteSecs) (hpast t ht)
    omega
  have hwindow := h (now / minuteSecs + 1 - n)
  rwa [hall] at hwindow

/-- A sum that wraps, and one that stops at the end, say what the sum of the numbers says. -/
theorem exceeds_iff {limit sum : Nat} (hlimit : limit < usize - 1) (hsum : limit > 0 → sum ≤ limit) :
    limit > 0 ∧ saturatingAdd (sum % usize) recipients > limit ↔ limit > 0 ∧ sum + recipients > limit := by
  refine and_congr_right fun hpos => ?_
  have hsmall : sum < usize := Nat.lt_of_le_of_lt (hsum hpos) (Nat.lt_of_lt_of_le hlimit (Nat.sub_le _ _))
  rw [Nat.mod_eq_of_lt hsmall, saturatingAdd]
  omega

end

/-- The code's lists and the ledger agree. -/
structure Kept (limits : Limits) (s : Counted) (l : Ledger) : Prop where
  answers : s.answers = l.answers
  fits : ∀ account, Fits ((s.state.accounts.lookup account).getD []) account s.now l.accepted
  times : ∀ t ∈ l.accepted, minuteSecs ≤ t.now ∧ t.now ≤ s.now
  within : Within limits l.accepted

variable {limits : Limits} {s s' : Counted} {l : Ledger} {t : Take} {account : Int} {now : Nat}
  {state : State}

/-- Sweeping does to a list what the account's next submission does. -/
theorem lookup_sweep (state : State) (account : Int) (now : Nat) :
    ((state.sweep now).accounts.lookup account).getD [] = (state.accounts.lookup account).getD [] ∨
      ((state.sweep now).accounts.lookup account).getD [] =
        forgetOld ((state.accounts.lookup account).getD []) now := by
  unfold State.sweep
  split
  · right
    rw [Dict.lookup_retain, Dict.lookup_map]
    cases state.accounts.lookup account with
    | none => rfl
    | some sent =>
      rw [Option.map_some, Option.getD_some]
      cases hsent : forgetOld sent now with
      | nil => rfl
      | cons e sent => rfl
  · exact .inl rfl

theorem Kept.swept (h : Kept limits s l) (hnow : s.now ≤ now) (account : Int) :
    Fits (((s.state.sweep now).accounts.lookup account).getD []) account now l.accepted := by
  rcases lookup_sweep s.state account now with heq | heq
  · rw [heq]
    exact (h.fits account).later hnow
  · rw [heq]
    exact ((h.fits account).later hnow).forgetOld

/-- The list a submission is judged by. -/
def judged (t : Take) (state : State) : Sent :=
  forgetOld (((state.sweep t.now).accounts.lookup t.account).getD []) t.now

/-- What the sums of a list say to a submission. -/
def verdict (limits : Limits) (t : Take) (sent : Sent) : Except Window Unit :=
  if limits.perHour > 0 ∧
      saturatingAdd (countAfter ((t.now - hourSecs) / minuteSecs) sent)
        t.recipients > limits.perHour then .error .hour
  else if limits.perDay > 0 ∧ saturatingAdd (countAll sent) t.recipients > limits.perDay then .error .day
  else .ok ()

theorem take_eq (limits : Limits) (t : Take) (state : State) : take limits t state =
    ({ state.sweep t.now with
        accounts := (state.sweep t.now).accounts.insert t.account
          (if verdict limits t (judged t state) =
            .ok () then count (t.now / minuteSecs) t.recipients (judged t state)
            else judged t state) },
      verdict limits t (judged t state)) := by
  unfold take verdict
  dsimp only
  split
  · rename_i h
    rw [judged, if_pos h, if_neg (by simp)]
  · rename_i h
    split
    · rename_i h'
      rw [judged, if_neg h, if_pos h', if_neg (by simp)]
    · rename_i h'
      rw [judged, if_neg h, if_neg h', if_pos rfl]

/-- **The answer of the code is that of the ledger.** -/
theorem Kept.answer_eq (h : Kept limits s l) (hnow : s.now ≤ t.now) (hok : Counts limits s t) :
    (take limits t s.state).2 = answer limits l.accepted t := by
  obtain ⟨hfirst, hhourMax, hdayMax⟩ := hok
  have hfits : Fits (judged t s.state) t.account t.now l.accepted := (h.swept hnow t.account).forgetOld
  have hminutes : ∀ a ∈ l.accepted, minuteSecs ≤ a.now := fun a ha => (h.times a ha).1
  have hpast : ∀ a ∈ l.accepted, a.now ≤ t.now := fun a ha => Nat.le_trans (h.times a ha).2 hnow
  have hhour : countAfter ((t.now - hourSecs) / minuteSecs) (judged t s.state) =
      lately t.account 60 t.now l.accepted % usize := by
    rw [countAfter_eq, ← sentSince_start hminutes]
    exact hfits.sum _ (Nat.div_le_div_right (Nat.sub_le_sub_left (by decide) _))
  have hday : countAll (judged t s.state) = lately t.account 1440 t.now l.accepted % usize := by
    have hbehind : ∀ e ∈ judged t s.state, (t.now - daySecs) / minuteSecs < e.1 := fun e he =>
      lt_of_mem_forgetOld (h.swept hnow t.account).sorted he
    rw [countAll_eq hbehind, ← sentSince_start hminutes]
    exact hfits.sum _ (Nat.le_refl _)
  have hhourLe : limits.perHour > 0 → lately t.account 60 t.now l.accepted ≤ limits.perHour := fun hpos =>
    lately_le hpast fun minute => (h.within t.account minute).1 hpos
  have hdayLe : limits.perDay > 0 → lately t.account 1440 t.now l.accepted ≤ limits.perDay := fun hpos =>
    lately_le hpast fun minute => (h.within t.account minute).2 hpos
  rw [take_eq]
  change verdict limits t (judged t s.state) = _
  unfold verdict
  rw [hhour, hday]
  simp only [exceeds_iff hhourMax hhourLe, exceeds_iff hdayMax hdayLe]
  rfl

/-- The lists behind a submission: the account's own, counted if it was accepted, and those of the
others, swept. -/
theorem lookup_take (limits : Limits) (t : Take) (state : State) (account : Int) :
    ((take limits t state).1.accounts.lookup account).getD [] =
      if t.account = account then
        if (take limits t state).2 = .ok () then count (t.now / minuteSecs) t.recipients
          (judged t state) else judged t state
      else ((state.sweep t.now).accounts.lookup account).getD [] := by
  rw [take_eq]
  by_cases h : t.account = account
  · subst h
    rw [if_pos rfl]
    rw [AList.lookup_insert, Option.getD_some]
  · rw [if_neg h]
    rw [AList.lookup_insert_ne (Ne.symm h)]

theorem Kept.step (h : Kept limits s l) (hok : Counts limits s t) (hstep : step limits s t = some s') :
    Kept limits s' (l.take limits t) := by
  unfold SendLimit.step at hstep
  split at hstep
  · cases hstep
  · rename_i hlt
    have hnow : s.now ≤ t.now := Nat.le_of_not_lt hlt
    have hanswer := h.answer_eq hnow hok
    obtain rfl := Option.some.inj hstep
    refine ⟨?_, fun account => ?_, fun a ha => ?_, ?_⟩
    · change s.answers ++ [(take limits t s.state).2] = l.answers ++ [answer limits l.accepted t]
      rw [h.answers, hanswer]
    · change Fits (((take limits t s.state).1.accounts.lookup account).getD []) account t.now
        (if answer limits l.accepted t = .ok () then l.accepted ++ [t] else l.accepted)
      have hjudged : Fits (judged t s.state) t.account t.now l.accepted := (h.swept hnow t.account).forgetOld
      rw [lookup_take, hanswer]
      by_cases hmine : t.account = account
      · subst hmine
        rw [if_pos rfl]
        split
        · exact hjudged.count
        · exact hjudged
      · rw [if_neg hmine]
        split
        · exact (h.swept hnow account).other hmine
        · exact h.swept hnow account
    · change a ∈ (if answer limits l.accepted t = .ok () then l.accepted ++ [t] else l.accepted) at ha
      have hold : a ∈ l.accepted → minuteSecs ≤ a.now ∧ a.now ≤ t.now := fun ha =>
        ⟨(h.times a ha).1, Nat.le_trans (h.times a ha).2 hnow⟩
      split at ha
      · rcases List.mem_append.1 ha with ha | ha
        · exact hold ha
        · obtain rfl := List.mem_singleton.1 ha
          exact ⟨hok.1, Nat.le_refl _⟩
      · exact hold ha
    · change Within limits (if answer limits l.accepted t = .ok () then l.accepted ++ [t] else l.accepted)
      split
      · rename_i haccepted
        exact within_snoc h.within haccepted
      · exact h.within

theorem Kept.run {takes : List Take} (h : Kept limits s l)
    (hok : Trace.Along (SendLimit.step limits) (Counts limits) s takes)
    (hrun : Trace.run (SendLimit.step limits) s takes = some s') :
      Kept limits s' (takes.foldl (Ledger.take limits) l) := by
  induction takes generalizing s l with
  | nil =>
    obtain rfl := Option.some.inj hrun
    exact h
  | cons t takes ih =>
    obtain ⟨u, hstep, hrun⟩ := Trace.run_cons_eq_some.1 hrun
    exact ih (h.step hok.1 hstep) (hok.2 u hstep) hrun

theorem kept_empty (limits : Limits) : Kept limits {} {} where
  answers := rfl
  fits := fun _ => ⟨List.Pairwise.nil, (fun _ he => nomatch he), fun _ _ => rfl⟩
  times := fun _ ht => nomatch ht
  within := fun _ _ => ⟨fun _ => Nat.zero_le _, fun _ => Nat.zero_le _⟩

/-- **Nothing is forgotten that still counts**: in every run of submissions after the first minute
of the epoch the answers are those of the ledger, and no hour and no day holds more than the limit. -/
theorem take_spec {takes : List Take} (hok : Trace.Along (step limits) (Counts limits) {} takes)
    (hrun : Trace.run (step limits) {} takes = some s) :
    s.answers = (ledger limits takes).answers ∧ Within limits (ledger limits takes).accepted :=
  have h := (kept_empty limits).run hok hrun
  ⟨h.answers, h.within⟩

/-- Two accounts in the same hour, and one that has to wait. -/
def three : List Take := [⟨1, 3, 1800000000⟩, ⟨2, 3, 1800000030⟩, ⟨1, 1, 1800000060⟩]

theorem take_spec_three : (Trace.run (step ⟨3, 5⟩) {} three).map (·.answers) = some [.ok (), .ok (),
    .error .hour] ∧
    Within ⟨3, 5⟩ (ledger ⟨3, 5⟩ three).accepted := by
  have hsome : (Trace.run (step ⟨3, 5⟩) {} three).isSome := by decide
  obtain ⟨s, hrun⟩ := Option.isSome_iff_exists.1 hsome
  have hok : Trace.Along (step ⟨3, 5⟩) (Counts ⟨3, 5⟩) {} three := by decide
  obtain ⟨hanswers, hwithin⟩ := take_spec hok hrun
  refine ⟨?_, hwithin⟩
  rw [hrun, Option.map_some, hanswers]
  decide

/-- **In the first minute of the epoch nothing counts**, nor where the clock stands before 1970 and
is read as zero. -/
theorem nothing_counts_at_zero : ¬ ∀ (limits : Limits) (takes : List Take) (s : Counted),
    Trace.run (step limits) {} takes = some s → s.answers = (ledger limits takes).answers := by
  intro h
  have hsome : ((Trace.run (step ⟨3, 5⟩) {} [⟨1, 3, 0⟩, ⟨1, 3, 0⟩]).map (·.answers)) = some [.ok (),
    .ok ()] := by decide
  obtain ⟨s, hrun, hanswers⟩ := Option.map_eq_some_iff.1 hsome
  have heq := h _ _ s hrun
  rw [hanswers] at heq
  revert heq
  decide

end UwuMail.SendLimit
