/-
# Which mailboxes a LIST pattern names

`mailboxes::matches` walks the path once and keeps the set of pattern positions it has reached.
**It says yes exactly when the path can be cut into pieces, one for each character of the pattern**
(`patternMatches_iff`): `*` stands for anything, `%` for anything without the separator, every other
character for itself.  INBOX is compared without regard to case where it is the FIRST component of
the pattern, and there only; a pattern of more than 255 characters names nothing.
-/
import Mathlib.Data.List.Induction
import UwuMail.Lib.Glob

namespace UwuMail.Imap.Pattern

open Glob

/-! ## 1. The matcher -/

def separator : Char := '/'

/-- `str::get(..n)` and what follows: the text is cut after `n` bytes where a character ends
there. -/
def splitBytes : Nat → List Char → Option (List Char × List Char)
  | 0, text => some ([], text)
  | _ + 1, [] => none
  | n + 1, c :: text =>
    if c.utf8Size ≤ n + 1 then (splitBytes (n + 1 - c.utf8Size) text).map fun (l, r) => (c :: l, r)
    else none
termination_by structural _ text => text

def eqIgnoreAsciiCase (a b : List Char) : Bool := a.map Char.toLower == b.map Char.toLower

def inbox : List Char := ['I', 'N', 'B', 'O', 'X']

def normalizePattern (pattern : List Char) : List Char :=
  match splitBytes 5 pattern with
  | some (first, rest) =>
    if eqIgnoreAsciiCase first inbox && (rest.head?.all (· == separator)) then inbox ++ rest
    else pattern
  | none => pattern

/-- Whether a position is reached: `reached[i]`. -/
def flag (reached : List Bool) (i : Nat) : Bool := reached.getD i false

def isWildcard (c : Char) : Bool := c == '*' || c == '%'

/-- The wildcards that may match nothing are passed: the closure `close`. -/
def close (pattern : List Char) (reached : List Bool) : List Bool :=
  pattern.zipIdx.foldl (fun reached (p, i) =>
    if flag reached i && isWildcard p then reached.set (i + 1) true else reached) reached

/-- What one position gives for a character of the path. -/
def advance (c : Char) (reached next : List Bool) (p : Char) (i : Nat) : List Bool :=
  if !flag reached i then next
  else if p == '*' then next.set i true
  else if p == '%' then if c != separator then next.set i true else next
  else if p == c then next.set (i + 1) true
  else next

/-- A character of the path is read. -/
def read (pattern : List Char) (reached : List Bool) (c : Char) : List Bool :=
  close pattern
    (pattern.zipIdx.foldl (fun next (p, i) => advance c reached next p i)
      (List.replicate (pattern.length + 1) false))

/-- The loop over the path; it ends where no position is reached. -/
def walk (pattern : List Char) : List Bool → List Char → Bool
  | reached, [] => flag reached pattern.length
  | reached, c :: path =>
    let next := read pattern reached c
    if !next.contains true then false else walk pattern next path

/-- `matches`. -/
def patternMatches (pattern path : List Char) : Bool :=
  let pattern := normalizePattern pattern
  if pattern.length > 255 then false
  else walk pattern (close pattern ((List.replicate (pattern.length + 1) false).set 0 true)) path

/-! ## 2. What its loops do -/

/-- What an enumerating loop keeps, from what one round keeps. -/
theorem foldl_zipIdx {β γ : Type} {P : Nat → γ → Prop} {f : γ → β × Nat → γ} (l : List β) {b : γ} (h0 : P 0 b)
    (hstep : ∀ i x b, l[i]? = some x → P i b → P (i + 1) (f b (x, i))) : P l.length (l.zipIdx.foldl f b) := by
  induction l using List.reverseRecOn with
  | nil => exact h0
  | append_singleton l x ih =>
    rw [List.zipIdx_append, List.foldl_append, List.length_append]
    have hl : ∀ i y b, l[i]? = some y → P i b → P (i + 1) (f b (y, i)) := fun i y b hy =>
      hstep i y b (by rw [List.getElem?_append_left (List.getElem?_eq_some_iff.1 hy).1]; exact hy)
    simpa using hstep l.length x _ (by simp) (ih hl)

theorem flag_set (l : List Bool) (i j : Nat) (hi : i < l.length) :
    flag (l.set i true) j = true ↔ j = i ∨ flag l j = true := by
  simp only [flag, List.getD_eq_getElem?_getD, List.getElem?_set]
  split
  · rename_i h
    simp [h]
  · rename_i h
    simp [Ne.symm h]

theorem flag_replicate (n i : Nat) : flag (List.replicate n false) i = false := by
  simp only [flag, List.getD_eq_getElem?_getD, List.getElem?_replicate]
  split <;> rfl

variable {pattern path : List Char} {reached : List Bool} {c : Char} {w : List Char}

/-- **Closing.**  A position is passed on when its wildcard is reached. -/
theorem close_spec {B C : Nat → Prop} (hlen : reached.length = pattern.length + 1)
    (hB : ∀ i, flag reached i = true ↔ B i) (hzero : C 0 ↔ B 0)
    (hsucc : ∀ i p, pattern[i]? = some p → (C (i + 1) ↔ B (i + 1) ∨ isWildcard p = true ∧ C i)) :
    (close pattern reached).length = pattern.length + 1 ∧
      ∀ i ≤ pattern.length, flag (close pattern reached) i = true ↔ C i := by
  have hloop := @foldl_zipIdx _ (List Bool)
    (fun k r => r.length = pattern.length + 1 ∧ (∀ i ≤ k, flag r i = true ↔ C i) ∧
      ∀ i, k < i → (flag r i = true ↔ B i))
    (fun reached (p, i) =>
      if flag reached i && isWildcard p then reached.set (i + 1) true else reached)
    pattern reached ?_ ?_
  · exact ⟨hloop.1, hloop.2.1⟩
  · refine ⟨hlen, fun i hi => ?_, fun i _ => hB i⟩
    obtain rfl := Nat.le_zero.1 hi
    rw [hzero, hB]
  · rintro k p r hp ⟨hr, hdone, hrest⟩
    have hk : k < pattern.length := (List.getElem?_eq_some_iff.1 hp).1
    have hC := hsucc k p hp
    dsimp only
    split
    · rename_i hpass
      simp only [Bool.and_eq_true] at hpass
      have hset := fun j => flag_set r (k + 1) j (by omega)
      refine ⟨by simpa using hr, fun i hi => ?_, fun i hi => ?_⟩
      · rw [hset]
        rcases Nat.lt_or_eq_of_le hi with hi | rfl
        · rw [hdone i (by omega)]
          simp [Nat.ne_of_lt hi]
        · simp [hC, hpass.2, (hdone k (Nat.le_refl k)).1 hpass.1]
      · rw [hset, hrest i (by omega)]
        simp [Nat.ne_of_gt hi]
    · rename_i hpass
      refine ⟨hr, fun i hi => ?_, fun i hi => hrest i (by omega)⟩
      rcases Nat.lt_or_eq_of_le hi with hi | rfl
      · exact hdone i (by omega)
      · rw [hrest _ (by omega), hC, ← hdone k (Nat.le_refl k)]
        simp only [Bool.and_eq_true, not_and] at hpass
        constructor
        · exact .inl
        · rintro (h | ⟨hwild, h⟩)
          · exact h
          · exact absurd hwild (hpass h)

/-- What a character of the path does to the position it finds reached: it stays, or it goes on. -/
def Moves (pattern : List Char) (c : Char) (i j : Nat) : Prop :=
  ∃ p, pattern[i]? = some p ∧
    (j = i ∧ (p = '*' ∨ p = '%' ∧ c ≠ separator) ∨ j = i + 1 ∧ isWildcard p = false ∧ p = c)

theorem advance_spec {next : List Bool} {p : Char} {i j : Nat} (hp : pattern[i]? = some p)
    (hi : i + 1 < next.length) : (advance c reached next p i).length = next.length ∧
      (flag (advance c reached next p i) j = true ↔
        flag next j = true ∨ flag reached i = true ∧ Moves pattern c i j) := by
  have hset := fun k hk => flag_set next k j hk
  unfold advance Moves
  simp only [hp, Option.some.injEq, exists_eq_left', isWildcard]
  cases hr : flag reached i with
  | false => simp
  | true =>
    by_cases hstar : p = '*'
    · subst hstar
      simp [hset i (by omega), or_comm]
    by_cases hpercent : p = '%'
    · subst hpercent
      by_cases hsep : c = separator
      · simp [hsep]
      · simp [hsep, hset i (by omega), or_comm]
    by_cases hc : p = c
    · subst hc
      simp [hstar, hpercent, hset (i + 1) hi, or_comm]
    · simp [hstar, hpercent, hc]

/-- What a character of the path leads to, before the wildcards that match nothing are passed. -/
theorem advanceAll_spec {next : List Bool}
    (hnext : next = pattern.zipIdx.foldl (fun next (p, i) => advance c reached next p i)
      (List.replicate (pattern.length + 1) false)) :
    next.length = pattern.length + 1 ∧
      ∀ j, flag next j = true ↔ ∃ i, flag reached i = true ∧ Moves pattern c i j := by
  have hloop := @foldl_zipIdx _ (List Bool)
    (fun k next => next.length = pattern.length + 1 ∧
      ∀ j, flag next j = true ↔ ∃ i < k, flag reached i = true ∧ Moves pattern c i j)
    (fun next (p, i) => advance c reached next p i)
    pattern (List.replicate (pattern.length + 1) false) ?_ ?_
  · rw [← hnext] at hloop
    refine ⟨hloop.1, fun j => (hloop.2 j).trans ⟨?_, ?_⟩⟩
    · rintro ⟨i, -, h⟩
      exact ⟨i, h⟩
    · rintro ⟨i, h, p, hp, hmoves⟩
      exact ⟨i, (List.getElem?_eq_some_iff.1 hp).1, h, p, hp, hmoves⟩
  · refine ⟨List.length_replicate, fun j => ?_⟩
    simp [flag_replicate]
  · rintro k p next hp ⟨hlen, hdone⟩
    have hk : k < pattern.length := (List.getElem?_eq_some_iff.1 hp).1
    have hone := fun j => @advance_spec _ reached c _ _ _ j hp (by omega : k + 1 < next.length)
    refine ⟨(hone 0).1.trans hlen, fun j => ?_⟩
    rw [(hone j).2, hdone]
    constructor
    · rintro (⟨i, hi, h⟩ | h)
      · exact ⟨i, by omega, h⟩
      · exact ⟨k, by omega, h⟩
    · rintro ⟨i, hi, h⟩
      rcases Nat.lt_or_eq_of_le (Nat.le_of_lt_succ hi) with hi | rfl
      · exact .inl ⟨i, hi, h⟩
      · exact .inr h

/-! ## 3. What the positions mean -/

/-- What a character of a pattern stands for. -/
def symbol (c : Char) : Sym Char :=
  if c = '*' then .run fun _ => true else if c = '%' then .run (· != separator) else .one c

/-- The flags are the positions that the path read so far reaches. -/
def Tracks (pattern w : List Char) (reached : List Bool) : Prop :=
  reached.length = pattern.length + 1 ∧
    ∀ i ≤ pattern.length, flag reached i = true ↔ Reached (pattern.map symbol) w i

variable {p : Char} {i : Nat}

theorem symbol_run : (∃ f, symbol p = .run f) ↔ isWildcard p = true := by
  unfold symbol isWildcard
  by_cases hstar : p = '*'
  · simp [hstar]
  by_cases hpercent : p = '%'
  · simp [hpercent]
  · simp [hstar, hpercent]

theorem symbol_one : symbol p = .one c ↔ isWildcard p = false ∧ p = c := by
  unfold symbol isWildcard
  by_cases hstar : p = '*'
  · simp [hstar]
  by_cases hpercent : p = '%'
  · simp [hpercent]
  · simp [hstar, hpercent]

theorem stays_iff : Stays (pattern.map symbol) c i ↔
    ∃ p, pattern[i]? = some p ∧ (p = '*' ∨ p = '%' ∧ c ≠ separator) := by
  have hstays : ∀ p, (∃ f, symbol p = .run f ∧ f c = true) ↔ p = '*' ∨ p = '%' ∧ c ≠ separator := by
    intro p
    unfold symbol
    by_cases hstar : p = '*'
    · simp [hstar]
    by_cases hpercent : p = '%'
    · simp [hpercent]
    · simp [hstar, hpercent]
  simp only [Stays, List.getElem?_map, Option.map_eq_some_iff]
  constructor
  · rintro ⟨f, ⟨p, hp, hf⟩, hc⟩
    exact ⟨p, hp, (hstays p).1 ⟨f, hf, hc⟩⟩
  · rintro ⟨p, hp, h⟩
    obtain ⟨f, hf, hc⟩ := (hstays p).2 h
    exact ⟨f, ⟨p, hp, hf⟩, hc⟩

theorem tracks_start :
    Tracks pattern [] (close pattern ((List.replicate (pattern.length + 1) false).set 0 true)) := by
  refine close_spec (B := fun i => i = 0) (C := Reached (pattern.map symbol) []) (by simp) (fun i => ?_) ?_ ?_
  · rw [flag_set _ _ _ (by simp)]
    simp [flag_replicate]
  · simp [reached_empty]
  · intro i p hp
    have hp : (pattern.map symbol)[i]? = some (symbol p) := by rw [List.getElem?_map, hp]; rfl
    rw [reached_empty, reached_empty, splits_take_succ_empty hp, symbol_run, and_comm]
    simp

/-- **A character of the path is read.** -/
theorem Tracks.read (h : Tracks pattern w reached) : Tracks pattern (w ++ [c]) (read pattern reached c) := by
  obtain ⟨hlen, hB⟩ := @advanceAll_spec pattern reached c _ rfl
  refine close_spec hlen hB (C := Reached (pattern.map symbol) (w ++ [c])) ?_ fun i p hp => ?_
  · rw [reached_concat_zero, stays_iff]
    constructor
    · rintro ⟨⟨p, hp, hstays⟩, hr⟩
      exact ⟨0, (h.2 0 (Nat.zero_le _)).2 hr, p, hp, .inl ⟨rfl, hstays⟩⟩
    · rintro ⟨i, hr, p, hp, ⟨rfl, hstays⟩ | ⟨hi, -⟩⟩
      · exact ⟨⟨p, hp, hstays⟩, (h.2 0 (Nat.zero_le _)).1 hr⟩
      · omega
  · have hi : i < pattern.length := (List.getElem?_eq_some_iff.1 hp).1
    have hp' : (pattern.map symbol)[i]? = some (symbol p) := by rw [List.getElem?_map, hp]; rfl
    rw [reached_concat_succ hp', symbol_run, symbol_one, stays_iff]
    refine or_congr ⟨?_, ?_⟩ Iff.rfl
    · rintro (⟨⟨q, hq, hstays⟩, hr⟩ | ⟨hone, hr⟩)
      · exact ⟨i + 1, (h.2 (i + 1) hi).2 hr, q, hq, .inl ⟨rfl, hstays⟩⟩
      · exact ⟨i, (h.2 i (Nat.le_of_lt hi)).2 hr, p, hp, .inr ⟨rfl, hone⟩⟩
    · rintro ⟨j, hr, q, hq, ⟨rfl, hstays⟩ | ⟨hj, hone⟩⟩
      · exact .inl ⟨⟨q, hq, hstays⟩, (h.2 (i + 1) hi).1 hr⟩
      · obtain rfl := Nat.succ.inj hj
        rw [hp] at hq
        cases hq
        exact .inr ⟨hone, (h.2 i (Nat.le_of_lt hi)).1 hr⟩

theorem contains_true (h : reached.length = pattern.length + 1) :
    reached.contains true = true ↔ ∃ i ≤ pattern.length, flag reached i = true := by
  rw [List.contains_iff_mem, List.mem_iff_getElem?]
  constructor
  · rintro ⟨i, hi⟩
    refine ⟨i, ?_, by simp [flag, hi]⟩
    have := (List.getElem?_eq_some_iff.1 hi).1
    omega
  · rintro ⟨i, hi, hflag⟩
    have hlt : i < reached.length := by omega
    refine ⟨i, ?_⟩
    simpa [flag, List.getElem?_eq_getElem hlt] using hflag

/-- **The walk over the path.** -/
theorem walk_iff (h : Tracks pattern w reached) :
    walk pattern reached path = true ↔ Splits (pattern.map symbol) (w ++ path) := by
  induction path generalizing w reached with
  | nil =>
    have hlength : (pattern.map symbol).length = pattern.length := List.length_map _
    rw [walk, h.2 _ (Nat.le_refl _), List.append_nil, ← hlength, reached_length]
  | cons c path ih =>
    have hread := h.read (c := c)
    rw [walk]
    split
    · rename_i hnone
      have hnone : ∀ i ≤ (pattern.map symbol).length, ¬ Reached (pattern.map symbol) (w ++ [c]) i := by
        intro i hi hr
        rw [List.length_map] at hi
        simp only [Bool.not_eq_true', ← Bool.not_eq_true, contains_true hread.1] at hnone
        exact hnone ⟨i, hi, (hread.2 i hi).2 hr⟩
      -- nothing that follows reaches a position again
      have hnever : ∀ rest : List Char, ∀ i ≤ (pattern.map symbol).length,
          ¬ Reached (pattern.map symbol) (w ++ [c] ++ rest) i := by
        intro rest
        induction rest using List.reverseRecOn with
        | nil => simpa using hnone
        | append_singleton rest d ihrest =>
          rw [← List.append_assoc]
          exact not_reached ihrest
      have := hnever path _ (Nat.le_refl _)
      rw [reached_length] at this
      simpa using this
    · rw [ih hread]
      simp

/-! ## 4. INBOX -/

/-- The pattern with its first component written as INBOX is, where it is INBOX in any case. -/
def compared (pattern : List Char) : List Char :=
  if eqIgnoreAsciiCase (pattern.takeWhile (· != separator)) inbox then
    inbox ++ pattern.dropWhile (· != separator)
  else pattern

theorem utf8Size_of_lower (h : c.toLower ∈ inbox.map Char.toLower) : c.utf8Size = 1 ∧ c ≠ separator := by
  by_cases hupper : c.val ≥ 'A'.val ∧ c.val ≤ 'Z'.val
  · refine ⟨Char.utf8Size_eq_one_iff.2 (UInt32.le_trans hupper.2 (by decide)), ?_⟩
    rintro rfl
    exact absurd hupper.1 (by decide)
  · have hsame : c.toLower = c := by
      exact dif_neg hupper
    rw [hsame] at h
    revert h
    have hletters : (inbox.map Char.toLower).all (fun d => d.utf8Size == 1 && d != separator) =
      true := by decide
    exact fun hc => by simpa using List.all_eq_true.1 hletters c hc

theorem eqIgnoreAsciiCase_inbox {first : List Char} (h : eqIgnoreAsciiCase first inbox = true) :
    first.length = 5 ∧ ∀ c ∈ first, c.utf8Size = 1 ∧ c ≠ separator := by
  have h : first.map Char.toLower = inbox.map Char.toLower := by simpa [eqIgnoreAsciiCase] using h
  refine ⟨by simpa [inbox] using congrArg List.length h, fun c hc => utf8Size_of_lower ?_⟩
  rw [← h]
  exact List.mem_map_of_mem hc

theorem splitBytes_ascii {first rest : List Char} (h : ∀ c ∈ first, c.utf8Size = 1) :
    splitBytes first.length (first ++ rest) = some (first, rest) := by
  induction first with
  | nil => simp [splitBytes]
  | cons c first ih =>
    have hc : c.utf8Size = 1 := h c (by simp)
    have ih := ih fun d hd => h d (by simp [hd])
    simp [splitBytes, hc, ih]

theorem splitBytes_append {n : Nat} {text first rest : List Char}
    (h : splitBytes n text = some (first, rest)) : text = first ++ rest := by
  fun_induction splitBytes n text generalizing first with
  | case1 text =>
    cases h
    rfl
  | case2 => cases h
  | case3 n c text hsize ih =>
    obtain ⟨⟨l, r⟩, hlr, heq⟩ := Option.map_eq_some_iff.1 h
    cases heq
    rw [ih hlr, List.cons_append]
  | case4 => cases h

theorem normalizePattern_eq (pattern : List Char) : normalizePattern pattern = compared pattern := by
  unfold compared
  split
  · rename_i hinbox
    obtain ⟨hlen, hascii⟩ := eqIgnoreAsciiCase_inbox hinbox
    have hsplit := @splitBytes_ascii _ (pattern.dropWhile (· != separator)) fun c hc => (hascii c hc).1
    rw [hlen, List.takeWhile_append_dropWhile] at hsplit
    have hhead : ((pattern.dropWhile (· != separator)).head?.all (· == separator)) = true := by
      have := List.head?_dropWhile_not (· != separator) pattern
      cases hd : (pattern.dropWhile (· != separator)).head? with
      | none => rfl
      | some d => simpa [hd] using this
    simp [normalizePattern, hsplit, hinbox, hhead]
  · rename_i hinbox
    unfold normalizePattern
    split
    · rename_i first rest hsplit
      split
      · rename_i hcond
        exfalso
        simp only [Bool.and_eq_true] at hcond
        obtain rfl := splitBytes_append hsplit
        obtain ⟨-, hascii⟩ := eqIgnoreAsciiCase_inbox hcond.1
        have hfirst : (first ++ rest).takeWhile (· != separator) = first := by
          rw [List.takeWhile_append_of_pos fun c hc => by simpa using (hascii c hc).2]
          cases rest with
          | nil => simp
          | cons d rest =>
            have hd : d = separator := by simpa using hcond.2
            simp [hd]
        exact hinbox (by rw [hfirst]; exact hcond.1)
      · rfl
    · rfl

/-! ## 5. The pattern and the path -/

/-- What a character of a pattern may stand for. -/
def Names (p : Char) (piece : List Char) : Prop :=
  if p = '*' then True else if p = '%' then separator ∉ piece else piece = [p]

theorem takes_symbol {p : Char} {piece : List Char} : (symbol p).Takes piece ↔ Names p piece := by
  unfold symbol Names
  split
  · simp [Sym.Takes]
  split
  · simp only [Sym.Takes, bne_iff_ne]
    exact ⟨fun h hsep => h _ hsep rfl, fun h c hc heq => h (heq ▸ hc)⟩
  · rfl

theorem splits_symbols : Splits (pattern.map symbol) path ↔
    ∃ pieces, List.Forall₂ Names pattern pieces ∧ pieces.flatten = path := by
  simp only [Splits, List.forall₂_map_left_iff, takes_symbol]

theorem length_compared (pattern : List Char) : (compared pattern).length = pattern.length := by
  unfold compared
  split
  · rename_i hinbox
    have hsum := congrArg List.length
      (List.takeWhile_append_dropWhile (p := (· != separator)) (l := pattern))
    rw [List.length_append, (eqIgnoreAsciiCase_inbox hinbox).1] at hsum
    have hinboxlen : inbox.length = 5 := rfl
    rw [List.length_append, hinboxlen, hsum]
  · rfl

/-- **A pattern of at most 255 characters matches the paths that can be cut into pieces, one for
each of its characters.** -/
theorem patternMatches_iff (pattern path : List Char) : patternMatches pattern path = true ↔
    pattern.length ≤ 255 ∧
      ∃ pieces, List.Forall₂ Names (compared pattern) pieces ∧ pieces.flatten = path := by
  have hlen := length_compared pattern
  rw [patternMatches, normalizePattern_eq, ← splits_symbols]
  split
  · rename_i hlong
    rw [hlen] at hlong
    simp [Nat.not_le.2 hlong]
  · rename_i hshort
    rw [walk_iff tracks_start]
    rw [hlen] at hshort
    simp [Nat.not_lt.1 hshort]

example : patternMatches ['i', 'n', 'b', 'o', 'x', '/', '%', '*',
    's'] (inbox ++ ['/', 'a', '/', 's']) = true := by
  decide

end UwuMail.Imap.Pattern
