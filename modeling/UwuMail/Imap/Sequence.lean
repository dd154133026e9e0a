/-
# Sequence sets

`response::sequence_set` prints UIDs in runs, `1:3,5,7:9`, and `Parser::sequence_set` reads such
sets.  **A set that is printed from increasing UIDs and read again holds these UIDs and no others**,
whatever `*` is, and the search for the end of a run never adds one to the largest number there is.
The same goes for the two lists of a COPYUID, which a client expands in order: they give back the
pairs (`sequenceSet_read`).

An empty list is printed as nothing, and nothing is no sequence set (`sequenceSet_empty`).
-/
import UwuMail.Imap.Session
import UwuMail.Imap.Parser

namespace UwuMail.Imap

open Byte

/-! ## 1. Printing -/

/-- `end + 1` of `u32`; an overflow stops the program. -/
def checkedSucc (n : UInt32) : Option UInt32 :=
  if n.toNat + 1 < 2 ^ 32 then some (n + 1) else none

/-- The inner loop of `sequence_set`: the end of a run, and what comes after it. -/
def runFrom (last : UInt32) : List UInt32 → Option (UInt32 × List UInt32)
  | [] => some (last, [])
  | n :: numbers => do
    if n = (← checkedSucc last) then runFrom n numbers
    else some (last, n :: numbers)

def digits (n : UInt32) : List Char := Nat.toDigits 10 n.toNat

/-- One run as it is printed. -/
def printRun (start last : UInt32) : List Char :=
  if start = last then digits start else digits start ++ ':' :: digits last

/-- The outer loop of `sequence_set`; every turn takes a number at least. -/
def sequenceSetLoop : Nat → List Char → List UInt32 → Option (List Char)
  | _, out, [] => some out
  | 0, _, _ :: _ => none
  | fuel + 1, out, start :: numbers => do
    let (last, numbers) ← runFrom start numbers
    let out := if out.isEmpty then out else out ++ [',']
    sequenceSetLoop fuel (out ++ printRun start last) numbers

def sequenceSet (numbers : List UInt32) : Option (List Char) := sequenceSetLoop numbers.length [] numbers

/-- `uid_list`: ranges are only used when the UIDs are in order. -/
def uidList (uids : List UInt32) : Option (List Char) :=
  let sorted := uids.mergeSort
  if sorted = uids then sequenceSet uids
  else some (List.intercalate [','] (uids.map digits))

/-! ## 2. Reading -/

def seqNum : Parsed SeqNum := do
  if ← eat star then pure .largest
  else do return .value (← nzNumber32)

/-- `to` of one turn: it is `from` where no colon comes. -/
def readTo (first : SeqNum) : Parsed (SeqNum × SeqNum) := do
  if ← eat colon then do return (first, ← seqNum)
  else pure (first, first)

/-- `from` and `to` of one turn. -/
def readRange : Parsed (SeqNum × SeqNum) := do
  let first ← seqNum
  readTo first

/-- The loop of `Parser::sequence_set`; every turn takes a byte at least. -/
def readRanges : Nat → SequenceSet → Parsed SequenceSet
  | 0, _ => throw "unreachable"
  | fuel + 1, ranges => do
    let range ← readRange
    if ← eat comma then readRanges fuel (ranges ++ [range]) else pure (ranges ++ [range])

/-- `Parser::sequence_set`. -/
def readSequenceSet : Parsed SequenceSet := do
  if ← eat dollar then pure [(.saved, .saved)]
  else readRanges ((← get).rest.length + 1) []

/-- What a client makes of the UIDs of a COPYUID: their order counts. -/
def expand (set : SequenceSet) : List Nat :=
  set.flatMap fun
    | (.value a, .value b) => List.range' a (b + 1 - a)
    | _ => []

/-! ## 3. Runs -/

abbrev Run := UInt32 × UInt32

/-- The numbers of a run. -/
def Run.numbers (run : Run) : List Nat := List.range' run.1.toNat (run.2.toNat + 1 - run.1.toNat)

def Run.Ordered (run : Run) : Prop := run.1.toNat ≤ run.2.toNat

/-- All numbers but the last have a number after them. -/
def Fits (numbers : List UInt32) : Prop := ∀ n ∈ numbers.dropLast, n.toNat + 1 < 2 ^ 32

/-- Runs with commas between them. -/
def printRuns : List Run → List Char
  | [] => []
  | run :: runs => printRun run.1 run.2 ++ runs.flatMap fun run => ',' :: printRun run.1 run.2

variable {numbers : List UInt32} {start last : UInt32} {out : List Char} {fuel : Nat}
  {runs : List Run}

theorem Fits.tail {n : UInt32} (h : Fits (n :: numbers)) : Fits numbers := by
  intro m hm
  cases numbers with
  | nil => cases hm
  | cons a numbers => exact h m (by simpa using Or.inr hm)

/-- **The end of a run is found**: what was gone over are the numbers from its start to its end. -/
theorem runFrom_spec (h : Fits (last :: numbers)) : ∃ stop rest taken,
    runFrom last numbers = some (stop, rest) ∧ Run.Ordered (last, stop) ∧ numbers = taken ++ rest ∧
      (last :: taken).map UInt32.toNat = Run.numbers (last, stop) := by
  induction numbers generalizing last with
  | nil =>
    refine ⟨last, [], [], rfl, Nat.le_refl _, rfl, ?_⟩
    simp [Run.numbers]
  | cons n numbers ih =>
    have hlast : last.toNat + 1 < 2 ^ 32 := h last (by simp)
    have hsucc : checkedSucc last = some (last + 1) := if_pos hlast
    by_cases hn : n = last + 1
    · obtain ⟨stop, rest, taken, hrun, hordered, rfl, hnumbers⟩ := ih h.tail
      have hnext : n.toNat = last.toNat + 1 := by
        rw [hn, UInt32.toNat_add]
        exact Nat.mod_eq_of_lt hlast
      have hordered : n.toNat ≤ stop.toNat := hordered
      refine ⟨stop, rest, n :: taken, ?_, ?_, rfl, ?_⟩
      · rw [runFrom, hsucc]
        simpa [hn] using hn ▸ hrun
      · change last.toNat ≤ stop.toNat
        omega
      · rw [List.map_cons, hnumbers]
        have hlen : stop.toNat + 1 - last.toNat = (stop.toNat + 1 - n.toNat) + 1 := by omega
        simp only [Run.numbers]
        rw [hlen, List.range'_succ, hnext]
    · refine ⟨last, n :: numbers, [], ?_, Nat.le_refl _, rfl, ?_⟩
      · rw [runFrom, hsucc]
        simp [hn]
      · simp [Run.numbers]

theorem Fits.drop {taken : List UInt32} (h : Fits (taken ++ numbers)) : Fits numbers := by
  induction taken with
  | nil => exact h
  | cons n taken ih => exact ih h.tail

theorem digits_ne_nil (n : UInt32) : digits n ≠ [] := Nat.toDigits_ne_nil

theorem printRun_ne_nil (start last : UInt32) : printRun start last ≠ [] := by
  unfold printRun
  split
  · exact digits_ne_nil start
  · exact fun h => digits_ne_nil start (List.append_eq_nil_iff.1 h).1

/-- The loop after a run was printed. -/
theorem sequenceSetLoop_more (h : Fits numbers) (hfuel : numbers.length ≤ fuel) (hout : out ≠ []) :
    ∃ runs : List Run, (∀ run ∈ runs, run.Ordered) ∧
      runs.flatMap Run.numbers = numbers.map UInt32.toNat ∧
      sequenceSetLoop fuel out numbers =
        some (out ++ runs.flatMap fun run => ',' :: printRun run.1 run.2) := by
  induction fuel generalizing numbers out with
  | zero =>
    obtain rfl := List.eq_nil_of_length_eq_zero (Nat.le_zero.1 hfuel)
    exact ⟨[], by simp, rfl, by simp [sequenceSetLoop]⟩
  | succ fuel ih =>
    cases numbers with
    | nil => exact ⟨[], by simp, rfl, by simp [sequenceSetLoop]⟩
    | cons start numbers =>
      obtain ⟨stop, rest, taken, hrun, hordered, rfl, hnumbers⟩ := runFrom_spec h
      have hlen : rest.length ≤ fuel := by
        simp only [List.length_cons, List.length_append] at hfuel
        omega
      obtain ⟨runs, hall, hflat, hloop⟩ := @ih _ (out ++ [','] ++ printRun start stop)
        (h.tail.drop) hlen (by simp)
      refine ⟨(start, stop) :: runs, ?_, ?_, ?_⟩
      · intro run hmem
        rcases List.mem_cons.1 hmem with rfl | hmem
        · exact hordered
        · exact hall run hmem
      · rw [List.flatMap_cons, hflat, ← hnumbers, ← List.map_append, List.cons_append]
      · rw [sequenceSetLoop, hrun]
        simp only [List.isEmpty_iff, hout, if_false, Option.bind_eq_bind, Option.bind_some]
        rw [hloop]
        simp

/-- **What is printed are runs that expand to the numbers.** -/
theorem sequenceSet_eq (h : Fits numbers) : ∃ runs : List Run, (∀ run ∈ runs, run.Ordered) ∧
    runs.flatMap Run.numbers = numbers.map UInt32.toNat ∧ sequenceSet numbers = some (printRuns runs) := by
  cases numbers with
  | nil => exact ⟨[], by simp, rfl, rfl⟩
  | cons start numbers =>
    obtain ⟨stop, rest, taken, hrun, hordered, rfl, hnumbers⟩ := runFrom_spec h
    obtain ⟨runs, hall, hflat, hloop⟩ := @sequenceSetLoop_more _ (printRun start stop) _ h.tail.drop
      (by simp : rest.length ≤ (taken ++ rest).length) (printRun_ne_nil start stop)
    refine ⟨(start, stop) :: runs, ?_, ?_, ?_⟩
    · intro run hmem
      rcases List.mem_cons.1 hmem with rfl | hmem
      · exact hordered
      · exact hall run hmem
    · rw [List.flatMap_cons, hflat, ← hnumbers, ← List.map_append, List.cons_append]
    · rw [sequenceSet, List.length_cons, sequenceSetLoop, hrun]
      simpa [printRuns] using hloop

theorem numbers_single (numbers : List UInt32) :
    (numbers.map fun n => (n, n)).flatMap Run.numbers = numbers.map UInt32.toNat := by
  induction numbers with
  | nil => rfl
  | cons n numbers ih =>
    rw [List.map_cons, List.flatMap_cons, ih, List.map_cons]
    simp [Run.numbers]

theorem printRuns_single (numbers : List UInt32) :
    printRuns (numbers.map fun n => (n, n)) = List.intercalate [','] (numbers.map digits) := by
  cases numbers with
  | nil => rfl
  | cons n numbers =>
    rw [List.map_cons, printRuns, List.map_cons]
    induction numbers generalizing n with
    | nil => simp [printRun, List.intercalate]
    | cons m numbers ih =>
      rw [List.map_cons, List.map_cons, List.flatMap_cons, List.intercalate_cons_cons, ← ih m]
      simp [printRun]

/-- The lists of a COPYUID are runs as well, some of one number each. -/
theorem uidList_eq (h : numbers.mergeSort = numbers → Fits numbers) :
    ∃ runs : List Run, (∀ run ∈ runs, run.Ordered) ∧
      runs.flatMap Run.numbers = numbers.map UInt32.toNat ∧ uidList numbers = some (printRuns runs) := by
  unfold uidList
  dsimp only
  split
  · rename_i hsorted
    exact sequenceSet_eq (h hsorted)
  · refine ⟨numbers.map fun n => (n, n), ?_, numbers_single numbers, ?_⟩
    · intro run hmem
      obtain ⟨n, -, rfl⟩ := List.mem_map.1 hmem
      exact Nat.le_refl _
    · rw [printRuns_single]

/-- Numbers in order, no two the same: only the last may be the largest there is. -/
theorem fits_of_sorted (h : numbers.Pairwise (· < ·)) : Fits numbers := by
  induction numbers with
  | nil => exact fun n hn => nomatch hn
  | cons n numbers ih =>
    intro m hm
    cases numbers with
    | nil => cases hm
    | cons k numbers =>
      rw [List.dropLast_cons_cons, List.mem_cons] at hm
      rcases hm with rfl | hm
      · have hlt : m < k := List.rel_of_pairwise_cons h (by simp)
        have := UInt32.lt_iff_toNat_lt.1 hlt
        have := k.toNat_lt
        omega
      · exact ih h.of_cons m hm

theorem fits_of_nodup (hnodup : numbers.Nodup) (hsorted : numbers.mergeSort = numbers) : Fits numbers := by
  refine fits_of_sorted ?_
  have hle : numbers.Pairwise (· ≤ ·) := by
    have := @List.pairwise_mergeSort _ (fun a b : UInt32 => decide (a ≤ b))
      (fun a b c hab hbc => decide_eq_true (UInt32.le_trans (of_decide_eq_true hab) (of_decide_eq_true hbc)))
      (fun a b => by simpa using UInt32.le_total a b) numbers
    rw [hsorted] at this
    simpa using this
  exact hle.imp₂ (fun a b hab hne => UInt32.lt_of_le_of_ne hab hne) hnodup

/-! ## 4. What is read of them -/

/-- The byte is none of a sequence set. -/
def isSetByte (b : UInt8) : Bool := isAsciiDigit b || b == colon || b == comma

def Run.range (run : Run) : SeqNum × SeqNum := (.value run.1.toNat, .value run.2.toNat)

def Run.Nonzero (run : Run) : Prop := run.1.toNat ≠ 0 ∧ run.2.toNat ≠ 0

theorem reads_seqNum {n : UInt32} (hpos : n.toNat ≠ 0) :
    Reads seqNum (Utf8.encode (digits n)) (stops isAsciiDigit) (.value n.toNat) := by
  refine Reads.bind_nil reads_eat_not ?_ fun rest _ => ?_
  · exact (reads_nzNumber32 hpos n.toNat_lt).bind_pure (g := SeqNum.value)
  · obtain ⟨d, bytes, hbytes, hd⟩ := printNat_cases n.toNat
    have hbytes : Utf8.encode (digits n) = d :: bytes := hbytes
    rw [hbytes]
    exact stops_cons (digit_ne hd rfl)

theorem reads_range {run : Run} (h : run.Nonzero) :
    Reads readRange (Utf8.encode (printRun run.1 run.2))
        (stops fun b => isAsciiDigit b || b == colon) run.range := by
  obtain ⟨start, last⟩ := run
  have hdigit : ∀ {rest}, stops (fun b => isAsciiDigit b || b == colon) rest → stops isAsciiDigit rest :=
    stops_mono fun b hb => by simp [hb]
  have hcolon : ∀ {rest}, stops (fun b => isAsciiDigit b || b == colon) rest → stops (· == colon) rest :=
    stops_mono fun b hb => by simp [hb]
  unfold printRun Run.range
  split
  · rename_i heq
    obtain rfl : start = last := heq
    have hsecond : Reads (readTo (.value start.toNat)) []
        (stops fun b => isAsciiDigit b || b == colon) (.value start.toNat, .value start.toNat) :=
      (reads_eat_not.mono fun _ => hcolon).bind_nil
        ((Reads.pure _).mono fun _ _ => trivial) fun _ hrest => hrest
    exact ((reads_seqNum h.1).bind hsecond fun _ => hdigit).of_eq (List.append_nil _)
  · have hsecond : Reads (readTo (.value start.toNat)) ([colon] ++ Utf8.encode (digits last))
        (stops fun b => isAsciiDigit b || b == colon) (.value start.toNat, .value last.toNat) :=
      reads_eat.bind ((reads_seqNum h.2).bind_pure.mono fun _ => hdigit) fun _ _ => trivial
    refine ((reads_seqNum h.1).bind hsecond fun rest _ => stops_cons rfl).of_eq ?_
    rw [Utf8.encode_append, Utf8.encode_cons]
    rfl

theorem reads_ranges {ranges : SequenceSet} (hruns : ∀ run ∈ runs, run.Nonzero) (hfuel : runs.length ≤ fuel)
    (hne : runs ≠ []) : Reads (readRanges fuel ranges) (Utf8.encode (printRuns runs)) (stops isSetByte)
      (ranges ++ runs.map Run.range) := by
  have hrange : ∀ {rest}, stops isSetByte rest → stops (fun b => isAsciiDigit b || b == colon) rest :=
    stops_mono fun b hb => by
      simp only [isSetByte, hb, Bool.true_or]
  have hcomma : ∀ {rest}, stops isSetByte rest → stops (· == comma) rest :=
    stops_mono fun b hb => by
      simp only [isSetByte, hb, Bool.or_true]
  induction fuel generalizing runs ranges with
  | zero => exact absurd (List.eq_nil_of_length_eq_zero (Nat.le_zero.1 hfuel)) hne
  | succ fuel ih =>
    cases runs with
    | nil => exact absurd rfl hne
    | cons run runs =>
      have hrun := reads_range (hruns run (by simp))
      rw [printRuns, Utf8.encode_append, readRanges]
      cases runs with
      | nil =>
        refine @Reads.bind _ _ _ _ _ _ _ _ _ (stops isSetByte) hrun ?_ fun rest hrest => hrange hrest
        exact (reads_eat_not.mono fun _ => hcomma).bind_nil
          ((Reads.pure _).mono fun _ _ => trivial) fun _ hrest => hrest
      | cons next runs =>
        have hmore := @ih _ (ranges ++ [run.range]) (fun run hmem => hruns run (by simp [hmem]))
          (by simpa using hfuel) (List.cons_ne_nil next runs)
        have hbytes : Utf8.encode ((next :: runs).flatMap fun run => ',' :: printRun run.1 run.2) =
            [comma] ++ Utf8.encode (printRuns (next :: runs)) := by
          rw [List.flatMap_cons, List.cons_append, Utf8.encode_cons]
          rfl
        rw [hbytes]
        refine @Reads.bind _ _ _ _ _ _ _ _ _ (stops isSetByte) hrun ?_ fun rest _ => stops_cons rfl
        refine reads_eat.bind ?_ fun _ _ => trivial
        simpa using hmore

theorem length_le_printRuns (runs : List Run) : runs.length ≤ (printRuns runs).length := by
  have hmore : ∀ runs : List Run, runs.length ≤
      (runs.flatMap fun run => ',' :: printRun run.1 run.2).length := by
    intro runs
    induction runs with
    | nil => exact Nat.le_refl 0
    | cons run runs ih =>
      rw [List.flatMap_cons, List.length_append, List.length_cons, List.length_cons]
      omega
  cases runs with
  | nil => exact Nat.le_refl 0
  | cons run runs =>
    have := List.length_pos_iff.2 (printRun_ne_nil run.1 run.2)
    have := hmore runs
    rw [printRuns, List.length_append, List.length_cons]
    omega

theorem printRuns_cases (hne : runs ≠ []) :
    ∃ d bytes, Utf8.encode (printRuns runs) = d :: bytes ∧ isAsciiDigit d = true := by
  cases runs with
  | nil => exact absurd rfl hne
  | cons run runs =>
    obtain ⟨d, bytes, hbytes, hd⟩ := printNat_cases run.1.toNat
    have hbytes : Utf8.encode (digits run.1) = d :: bytes := hbytes
    rw [printRuns, printRun]
    split
    · exact ⟨d, _, by rw [Utf8.encode_append, hbytes, List.cons_append], hd⟩
    · exact ⟨d, _, by rw [Utf8.encode_append, Utf8.encode_append, hbytes, List.cons_append,
        List.cons_append], hd⟩

/-- **A set that was printed is read.** -/
theorem reads_sequenceSet (hruns : ∀ run ∈ runs, run.Nonzero) (hne : runs ≠ []) :
    Reads readSequenceSet (Utf8.encode (printRuns runs)) (stops isSetByte) (runs.map Run.range) := by
  intro p rest hrest hallowed
  have hlen : runs.length ≤ p.rest.length + 1 := by
    have := length_le_printRuns runs
    have := @Utf8.length_le_encode (printRuns runs)
    rw [hrest.rest, List.length_append]
    omega
  obtain ⟨d, bytes, hbytes, hd⟩ := printRuns_cases hne
  have hdollar : stops (· == dollar) (Utf8.encode (printRuns runs) ++ rest) := by
    rw [hbytes]
    exact stops_cons (digit_ne hd rfl)
  rw [readSequenceSet, Tx.exec_bind, reads_eat_not p _ hrest hdollar]
  simp only [List.length_nil, skip_zero, Bool.false_eq_true, if_false]
  rw [Tx.exec_bind, Tx.exec_get]
  exact @reads_ranges _ _ [] hruns hlen hne p rest hrest hallowed

/-! ## 5. Sets -/

theorem expand_runs (runs : List Run) :
    expand (runs.map Run.range) = runs.flatMap Run.numbers := by
  rw [expand, List.flatMap_map]
  rfl

theorem contains_runs (hruns : ∀ run ∈ runs, run.Ordered) (n largest : Nat) :
    contains (runs.map Run.range) n largest = true ↔ n ∈ runs.flatMap Run.numbers := by
  simp only [contains, List.any_map, List.any_eq_true, List.mem_flatMap]
  refine exists_congr fun run => and_congr_right fun hrun => ?_
  have hordered : run.1.toNat ≤ run.2.toNat := hruns run hrun
  change (decide (min run.1.toNat run.2.toNat ≤ n) && decide (n ≤ max run.1.toNat run.2.toNat)) = true ↔ _
  rw [Bool.and_eq_true, decide_eq_true_eq, decide_eq_true_eq, Nat.min_eq_left hordered,
    Nat.max_eq_right hordered, Run.numbers, List.mem_range'_1]
  omega

/-- The ends of the runs are among the numbers. -/
theorem runs_nonzero (hruns : ∀ run ∈ runs, run.Ordered)
    (hnumbers : runs.flatMap Run.numbers = numbers.map UInt32.toNat) (hpos : ∀ n ∈ numbers, n ≠ 0) :
    ∀ run ∈ runs, run.Nonzero := by
  have hnonzero : ∀ n ∈ runs.flatMap Run.numbers, n ≠ 0 := by
    intro n hn
    rw [hnumbers] at hn
    obtain ⟨m, hm, rfl⟩ := List.mem_map.1 hn
    exact fun hzero => hpos m hm (UInt32.toNat_inj.1 hzero)
  intro run hrun
  have hordered : run.1.toNat ≤ run.2.toNat := hruns run hrun
  constructor
  · exact hnonzero _ (List.mem_flatMap.2 ⟨run, hrun, List.mem_range'_1.2 ⟨Nat.le_refl _, by omega⟩⟩)
  · exact hnonzero _ (List.mem_flatMap.2 ⟨run, hrun, List.mem_range'_1.2 ⟨hordered, by omega⟩⟩)

/-- The text is there (nothing overflowed), and it is read as the set. -/
def ReadAs (text : Option (List Char)) (set : SequenceSet) : Prop :=
  ∃ chars, text = some chars ∧ Reads readSequenceSet (Utf8.encode chars) (stops isSetByte) set

/-- **Sequence sets are read as they were printed**, and so are the lists of a COPYUID. -/
theorem sequenceSet_read :
    (∀ numbers : List UInt32, numbers ≠ [] → numbers.Pairwise (· < ·) → (∀ n ∈ numbers, n ≠ 0) →
      ∃ set, ReadAs (sequenceSet numbers) set ∧
        ∀ (n : UInt32) (largest : Nat), contains set n.toNat largest = true ↔ n ∈ numbers) ∧
    ∀ pairs : List (UInt32 × UInt32), pairs ≠ [] → (pairs.map Prod.fst).Nodup → (pairs.map Prod.snd).Nodup →
      (∀ pair ∈ pairs, pair.1 ≠ 0 ∧ pair.2 ≠ 0) →
      ∃ sources targets, ReadAs (uidList (pairs.map Prod.fst)) sources ∧
        ReadAs (uidList (pairs.map Prod.snd)) targets ∧
        (expand sources).zip (expand targets) = pairs.map fun pair => (pair.1.toNat, pair.2.toNat) := by
  constructor
  · intro numbers hne hsorted hpos
    obtain ⟨runs, hruns, hnumbers, htext⟩ := sequenceSet_eq (fits_of_sorted hsorted)
    have hrunsne : runs ≠ [] := by
      rintro rfl
      exact hne (List.map_eq_nil_iff.1 hnumbers.symm)
    refine ⟨runs.map Run.range, ⟨_, htext, reads_sequenceSet (runs_nonzero hruns hnumbers hpos) hrunsne⟩, ?_⟩
    intro n largest
    rw [contains_runs hruns, hnumbers, List.mem_map]
    constructor
    · rintro ⟨m, hm, heq⟩
      rwa [← UInt32.toNat_inj.1 heq]
    · exact fun hn => ⟨n, hn, rfl⟩
  · intro pairs hne hsources htargets hpos
    have hlist : ∀ uids : List UInt32, uids ≠ [] → uids.Nodup → (∀ n ∈ uids, n ≠ 0) →
        ∃ set, ReadAs (uidList uids) set ∧ expand set = uids.map UInt32.toNat := by
      intro uids hne hnodup hpos
      obtain ⟨runs, hruns, hnumbers, htext⟩ := uidList_eq (fits_of_nodup hnodup)
      have hrunsne : runs ≠ [] := by
        rintro rfl
        exact hne (List.map_eq_nil_iff.1 hnumbers.symm)
      refine ⟨runs.map Run.range, ⟨_, htext, reads_sequenceSet (runs_nonzero hruns hnumbers hpos) hrunsne⟩, ?_⟩
      rw [expand_runs, hnumbers]
    obtain ⟨sources, hreads, hexpand⟩ := hlist (pairs.map Prod.fst) (by simpa using hne) hsources
      (by simpa using fun a b h => (hpos (a, b) h).1)
    obtain ⟨targets, hreads', hexpand'⟩ := hlist (pairs.map Prod.snd) (by simpa using hne) htargets
      (by simpa using fun b a h => (hpos (a, b) h).2)
    refine ⟨sources, targets, hreads, hreads', ?_⟩
    rw [hexpand, hexpand', List.map_map, List.map_map, List.zip_map']
    rfl

theorem sequenceSet_read_max : (∃ set, ReadAs (sequenceSet [1, 2, 3, 0xffffffff]) set ∧
      ∀ (n : UInt32) (largest : Nat), contains set n.toNat largest = true ↔
        n ∈ ([1, 2, 3, 0xffffffff] : List UInt32)) ∧
    ∃ sources targets, ReadAs (uidList [3, 4]) sources ∧ ReadAs (uidList [0xffffffff, 7]) targets ∧
      (expand sources).zip (expand targets) = [(3, 0xffffffff), (4, 7)] :=
  ⟨sequenceSet_read.1 [1, 2, 3, 0xffffffff] (by simp) (by decide) (by simp),
    sequenceSet_read.2 [(3, 0xffffffff), (4, 7)] (by simp) (by decide) (by decide) (by simp)⟩

/-- **No UID is no set**: what is printed of none cannot be read. -/
theorem sequenceSet_empty : ¬ ∀ numbers : List UInt32, numbers.Pairwise (· < ·) → (∀ n ∈ numbers, n ≠ 0) →
    ∃ set, ReadAs (sequenceSet numbers) set ∧
      ∀ (n : UInt32) (largest : Nat), contains set n.toNat largest = true ↔ n ∈ numbers := by
  intro h
  obtain ⟨set, ⟨chars, htext, hreads⟩, -⟩ := h [] .nil (by simp)
  cases htext
  have hread := hreads { input := [], pos := 0, utf8 := false, fits := by decide } []
    ⟨Nat.le_refl _, rfl⟩ (fun _ h => nomatch h)
  cases congrArg Prod.fst hread

end UwuMail.Imap
