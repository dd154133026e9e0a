/-
# iCalendar, line by line

`itip.rs`: an iCalendar object as a tree of components and content lines, read and written without
knowing what the lines mean.  What is read is meant to be written as it was.

* §2 says what a content line holds, in terms of the text between quotation marks.
* §3 is one property: a parameter value that needs quotation marks is written between them, without
  the marks it has, and a colon that was safe in a QUOTATION BEGUN BEFORE the value no longer is.
  `Kept` is what a property needs to be read back as it was.
* §4 is folding, §5 the tree.  `ics_round_trip` puts them together.
-/
import Mathlib
import UwuMail.Lib.Pieces
import UwuMail.Lib.Quoting
import UwuMail.Store.Mutate

namespace UwuMail.Itip

open Lib.Quoting

/-! ## 1. The source -/

abbrev Text := List Char

/-- Longest content line before it is folded, in octets (RFC 5545, 3.1). -/
def foldAt : Nat := 75
/-- Components and lines one object may have before it is not read at all. -/
def maxLines : Nat := 100000
def maxDepth : Nat := 16

def upper (text : Text) : Text := text.map Char.toUpper

def eqIgnoreAsciiCase (a b : Text) : Bool := upper a == upper b

def trim (text : Text) : Text := Lib.trim Store.isWhitespace text

/-- One content line: `NAME;PARAM=value:VALUE`. -/
structure Property where
  /-- Upper case. -/
  name : Text
  /-- Names upper case; values as written, without surrounding quotes. -/
  params : List (Text × Text)
  value : Text
deriving DecidableEq

/-- `Property::new` -/
def Property.of (name : String) (value : Text) : Property := ⟨upper name.toList, [], value⟩

def Property.isNamed (name : String) (p : Property) : Bool := eqIgnoreAsciiCase p.name name.toList

def isSpecial (c : Char) : Bool := c == ':' || c == ';' || c == ','

/-- A value that would end the parameter or the line goes between quotation marks, without its
own. -/
def writeValue (value : Text) : Text :=
  if value.any isSpecial && value.head? != some '"' then '"' :: (value.filter (· != '"') ++ ['"'])
  else value

/-- The content line of a property, before it is folded. -/
def Property.line (p : Property) : Text :=
  p.name ++ p.params.flatMap (fun param => ';' :: param.1 ++ '=' :: writeValue param.2) ++ ':' :: p.value

/-- The loop of `fold`; `width` is how many octets the physical line has. -/
def foldFrom (width : Nat) : Text → Text
  | [] => ['\r', '\n']
  | ch :: line =>
    if width + ch.utf8Size > foldAt then '\r' :: '\n' :: ' ' :: ch :: foldFrom (1 + ch.utf8Size) line
    else ch :: foldFrom (width + ch.utf8Size) line

def fold (line : Text) : Text := foldFrom 0 line

def Property.write (p : Property) : Text := fold p.line

/-- A component with its lines and the components inside it. -/
inductive Component where
  | mk (name : Text) (properties : List Property) (components : List Component)

namespace Component

/-- Upper case, like `VEVENT`. -/
def name : Component → Text
  | mk name _ _ => name

def properties : Component → List Property
  | mk _ properties _ => properties

def components : Component → List Component
  | mk _ _ components => components

/-- `Component::new` -/
def new (name : Text) : Component := mk (upper name) [] []

/-- The first property of the name. -/
def property (c : Component) (name : String) : Option Property := c.properties.find? (Property.isNamed name)

def value (c : Component) (name : String) : Option Text := (c.property name).map Property.value

def addProperty : Component → Property → Component
  | mk name properties components, p => mk name (properties ++ [p]) components

def addComponent : Component → Component → Component
  | mk name properties components, c => mk name properties (components ++ [c])

end Component

/-- The loop of `parse_line`: where the first `;` and the first `:` outside of quotation marks
stand, the `;` only if it comes before the `:`. -/
def scan (i : Nat) (quoted : Bool) (nameEnd : Option Nat) : Text → Option Nat × Option Nat
  | [] => (nameEnd, none)
  | c :: line =>
    if c = '"' then scan (i + 1) (!quoted) nameEnd line
    else if c = ';' ∧ quoted = false ∧ nameEnd = none then scan (i + 1) quoted (some i) line
    else if c = ':' ∧ quoted = false then (nameEnd, some i)
    else scan (i + 1) quoted nameEnd line

/-- What is between the quotation marks a value begins and ends with, if there are no others. -/
def unquote (value : Text) : Text :=
  match value with
  | '"' :: v => if v.getLast? = some '"' ∧ '"' ∉ v.dropLast then v.dropLast else value
  | _ => value

/-- The loop over the parameters.  Each turn takes at least the `=`, so the length of the text is
enough fuel. -/
def readParams : Nat → Text → Option (List (Text × Text))
  | _, [] => some []
  | 0, _ :: _ => none
  | fuel + 1, rest =>
    match rest.span (· ≠ '=') with
    | (_, []) => none
    | (key, _ :: after) =>
      let value := ((cut '"' ';' false after).map Prod.fst).getD after
      (readParams fuel (after.drop (value.length + 1))).map ((upper (trim key), unquote value) :: ·)

def isNameChar (c : Char) : Bool := c.isAlphanum || c == '-'

/-- `NAME;PARAM=value;PARAM="quoted:value":VALUE` -/
def parseLine (line : Text) : Option Property :=
  match scan 0 false none line with
  | (_, none) => none
  | (nameEnd, some colon) =>
    let nameEnd := nameEnd.getD colon
    let name := trim (line.take nameEnd)
    if name.isEmpty || !name.all isNameChar then none
    else
      let rest := (line.take colon).drop (nameEnd + 1)
      let params := if nameEnd < colon then readParams rest.length rest else some []
      params.map fun params => ⟨upper name, params, line.drop (colon + 1)⟩

def stripCr (raw : Text) : Text := if raw.getLast? = some '\r' then raw.dropLast else raw

/-- One physical line: the next content line, or more of the last one. -/
def addRaw (lines : List Text) (raw : Text) : Option (List Text) :=
  match stripCr raw with
  | [] => some lines
  | c :: rest =>
    if c = ' ' ∨ c = '\t' then
      match lines.getLast? with
      | some last => some (lines.dropLast ++ [last ++ rest])
      | none => none
    else if lines.length ≥ maxLines then none
    else some (lines ++ [c :: rest])

/-- The content lines of a text, unfolded. -/
def unfold (text : Text) : Option (List Text) := (text.splitOn '\n').foldlM addRaw []

def «begin» : Text := "BEGIN".toList
def «end» : Text := "END".toList

/-- Components that are not closed yet, the innermost first, and the one that is closed and in no
other. -/
structure Reading where
  stack : List Component
  root : Option Component

/-- One content line. -/
def addProperty (s : Reading) (property : Property) : Option Reading :=
  if property.name = «begin» then
    if s.root.isSome ∨ s.stack.length ≥ maxDepth then none
    else some { s with stack := Component.new property.value :: s.stack }
  else if property.name = «end» then
    match s.stack with
    | [] => none
    | done :: stack =>
      if !eqIgnoreAsciiCase done.name (trim property.value) then none
      else
        match stack with
        | parent :: stack => some { s with stack := parent.addComponent done :: stack }
        | [] => some ⟨[], some done⟩
  else
    match s.stack with
    | [] => none
    | top :: stack => some { s with stack := top.addProperty property :: stack }

def addLine (s : Reading) (line : Text) : Option Reading := (parseLine line).bind (addProperty s)

def calendar : Text := "VCALENDAR".toList

/-- `Component::parse`: reads an iCalendar object.  `none` when it is not one. -/
def parse (text : Text) : Option Component := do
  let lines ← unfold text
  let s ← lines.foldlM addLine ⟨[], none⟩
  s.root.filter fun root => s.stack.isEmpty && root.name == calendar

mutual

def Component.write : Component → Text
  | .mk name properties components =>
    fold («begin» ++ ':' :: name) ++ properties.flatMap Property.write ++ writeAll components ++
      fold («end» ++ ':' :: name)

def writeAll : List Component → Text
  | [] => []
  | c :: components => c.write ++ writeAll components

end

/-- The object as iCalendar text, lines folded. -/
def Component.toIcs (c : Component) : Text := c.write

/-! ## 2. What a content line holds -/

theorem toUpper_cases (c : Char) : c.toUpper = c ∨ ∃ n < 26, c = Char.ofNat (97 + n) ∧ c.toUpper =
    Char.ofNat (65 + n) := by
  by_cases h : 'a'.val ≤ c.val ∧ c.val ≤ 'z'.val
  · have hlo := UInt32.le_iff_toNat_le.1 h.1
    have hhi := UInt32.le_iff_toNat_le.1 h.2
    have ha : 'a'.val.toNat = 97 := rfl
    have hz : 'z'.val.toNat = 122 := rfl
    have hc : c = Char.ofNat (97 + (c.toNat - 97)) := by
      rw [Nat.add_sub_cancel' (by change 97 ≤ c.val.toNat; omega), Char.ofNat_toNat]
    have hlt : c.toNat - 97 < 26 := by
      change c.val.toNat - 97 < 26
      omega
    have hall : ∀ n < 26, (Char.ofNat (97 + n)).toUpper = Char.ofNat (65 + n) := by decide
    exact .inr ⟨_, hlt, hc, (congrArg Char.toUpper hc).trans (hall _ hlt)⟩
  · left
    unfold Char.toUpper
    rw [dif_neg h]

/-- A kind of character that does not tell a letter in lower case from one in upper case. -/
theorem toUpper_kind {β : Type} [DecidableEq β] (kind : Char → β)
    (hall : ∀ n < 26, kind (Char.ofNat (65 + n)) = kind (Char.ofNat (97 + n))) (c : Char) :
      kind c.toUpper = kind c := by
  obtain h | ⟨n, hn, hc, hupper⟩ := toUpper_cases c
  · rw [h]
  · rw [hupper, hc, hall n hn]

@[simp] theorem upper_upper (text : Text) : upper (upper text) = upper text := by
  unfold upper
  rw [List.map_map]
  refine List.map_congr_left fun c _ => ?_
  exact toUpper_kind Char.toUpper (by decide) c

/-- A character that is no letter is in the text in upper case where it is in the text. -/
theorem toUpper_eq_iff {d : Char} (hd : ∀ n < 26, Char.ofNat (65 + n) ≠ d ∧ Char.ofNat (97 + n) ≠ d)
    (c : Char) :
    c.toUpper = d ↔ c = d := by
  have h := toUpper_kind (fun c => decide (c = d))
    (fun n hn => by rw [decide_eq_false (hd n hn).1, decide_eq_false (hd n hn).2]) c
  exact decide_eq_decide.1 h

theorem mem_upper_iff {d : Char} (hd : ∀ n < 26, Char.ofNat (65 + n) ≠ d ∧ Char.ofNat (97 + n) ≠ d)
    (text : Text) :
    d ∈ upper text ↔ d ∈ text := by
  unfold upper
  rw [List.mem_map]
  constructor
  · rintro ⟨c, hmem, hc⟩
    exact ((toUpper_eq_iff hd c).1 hc) ▸ hmem
  · intro hmem
    exact ⟨d, hmem, (toUpper_eq_iff hd d).2 rfl⟩

theorem trim_upper (text : Text) : trim (upper text) = upper (trim text) :=
  Lib.trim_map (toUpper_kind Store.isWhitespace (by decide))

@[simp] theorem trim_trim (text : Text) : trim (trim text) = trim text := Lib.trim_trim

theorem mem_of_mem_trim {c : Char} {text : Text} (h : c ∈ trim text) : c ∈ text := Lib.mem_of_mem_trim h

/-- The one loop over the line does what two searches would. -/
theorem scan_eq {i : Nat} {quoted : Bool} {nameEnd : Option Nat} {head value : Text}
    (hclear : Clear '"' ':' quoted head) (hafter : after '"' quoted head = false) :
    scan i quoted nameEnd (head ++ ':' :: value) =
      (nameEnd.or ((cut '"' ';' quoted head).map fun parts => i + parts.1.length),
          some (i + head.length)) := by
  induction head generalizing i quoted nameEnd with
  | nil =>
    obtain rfl : quoted = false := hafter
    cases nameEnd <;> rfl
  | cons c head ih =>
    rw [clear_cons] at hclear
    rw [after_cons] at hafter
    have hlen : i + (c :: head).length = i + 1 + head.length := by
      rw [List.length_cons]
      omega
    rw [List.cons_append, scan, hlen, cut]
    by_cases hquote : c = '"'
    · subst hquote
      rw [next_quote] at hclear hafter
      rw [if_pos rfl, if_neg (by simp), ih hclear.2 hafter, next_quote, Option.map_map]
      congr 2
      refine Option.map_congr fun parts _ => ?_
      simp only [Function.comp, List.length_cons]
      omega
    rw [next_ne hquote] at hclear hafter ⊢
    rw [if_neg hquote]
    by_cases hsemi : c = ';' ∧ quoted = false
    · rw [if_pos hsemi, Option.map_some]
      cases nameEnd with
      | none =>
        rw [if_pos ⟨hsemi.1, hsemi.2, rfl⟩, ih hclear.2 hafter]
        rfl
      | some n =>
        have hne : ¬ (c = ':' ∧ quoted = false) := fun h => absurd (h.1.symm.trans hsemi.1) (by decide)
        rw [if_neg fun h => Option.some_ne_none _ h.2.2, if_neg hne, ih hclear.2 hafter]
        rfl
    · have hne : ¬ (c = ':' ∧ quoted = false) := fun h => absurd (hclear.1 h.1) (by rw [h.2]; exact Bool.false_ne_true)
      rw [if_neg fun h => hsemi ⟨h.1, h.2.1⟩, if_neg hne, if_neg hsemi, ih hclear.2 hafter, Option.map_map]
      congr 2
      refine Option.map_congr fun parts _ => ?_
      simp only [Function.comp, List.length_cons]
      omega

variable {line : Text}

theorem scan_none {i : Nat} {quoted : Bool} {nameEnd : Option Nat} (h : Clear '"' ':' quoted line) :
    (scan i quoted nameEnd line).2 = none := by
  induction line generalizing i quoted nameEnd with
  | nil => rfl
  | cons c line ih =>
    rw [clear_cons] at h
    rw [scan]
    by_cases hquote : c = '"'
    · subst hquote
      rw [next_quote] at h
      rw [if_pos rfl]
      exact ih h.2
    · rw [next_ne hquote] at h
      have hne : ¬ (c = ':' ∧ quoted = false) := fun heq => absurd (h.1 heq.1) (by rw [heq.2]; exact Bool.false_ne_true)
      rw [if_neg hquote]
      by_cases hsemi : c = ';' ∧ quoted = false ∧ nameEnd = none
      · rw [if_pos hsemi]
        exact ih h.2
      · rw [if_neg hsemi, if_neg hne]
        exact ih h.2

/-- The parameters of a line: each up to the next bare `;`, whose last one may be missing. -/
inductive Params : Text → List (Text × Text) → Prop
  | nil : Params [] []
  | last {key value : Text} (hkey : '=' ∉ key) (hclear : Clear '"' ';' false value) :
      Params (key ++ '=' :: value) [(upper (trim key), unquote value)]
  | more {key value rest : Text} {params : List (Text × Text)} (hkey : '=' ∉ key)
      (hclear : Clear '"' ';' false value) (hafter : after '"' false value = false)
        (hrest : Params rest params) :
      Params (key ++ '=' :: (value ++ ';' :: rest)) ((upper (trim key), unquote value) :: params)

theorem span_eq {key after : Text} (h : '=' ∉ key) :
    (key ++ '=' :: after).span (· ≠ '=') = (key, '=' :: after) := by
  have hall : ∀ c ∈ key, decide (c ≠ '=') = true := by
    intro c hc
    rw [decide_eq_true_eq]
    rintro rfl
    exact h hc
  rw [List.span_eq_takeWhile_dropWhile, List.takeWhile_append_of_pos hall, List.dropWhile_append_of_pos hall]
  simp

/-- One turn of the loop. -/
theorem readParams_turn {fuel : Nat} {key after : Text} (h : '=' ∉ key) :
    readParams (fuel + 1) (key ++ '=' :: after) =
      (readParams fuel (after.drop ((((cut '"' ';' false after).map Prod.fst).getD after).length + 1))).map
        ((upper (trim key), unquote (((cut '"' ';' false after).map Prod.fst).getD after)) :: ·) := by
  obtain ⟨c, rest, hrest⟩ := List.exists_cons_of_ne_nil (show key ++ '=' :: after ≠ [] by simp)
  rw [hrest, readParams.eq_def]
  simp only [← hrest, span_eq h]

theorem readParams_nil {fuel : Nat} : readParams fuel [] = some [] := by
  cases fuel <;> rfl

theorem readParams_complete {rest : Text} {params : List (Text × Text)} (h : Params rest params) :
    ∀ {fuel : Nat}, rest.length ≤ fuel → readParams fuel rest = some params := by
  induction h with
  | nil =>
    intro fuel _
    exact readParams_nil
  | @last key value hkey hclear =>
    intro fuel hfuel
    rw [List.length_append, List.length_cons] at hfuel
    obtain ⟨fuel, rfl⟩ := Nat.exists_eq_add_one_of_ne_zero (show fuel ≠ 0 by omega)
    rw [readParams_turn hkey, cut_eq_none.2 hclear, Option.map_none, Option.getD_none,
      List.drop_eq_nil_of_le (Nat.le_succ _), readParams_nil, Option.map_some]
  | @more key value rest params hkey hclear hafter _ ih =>
    intro fuel hfuel
    rw [List.length_append, List.length_cons, List.length_append, List.length_cons] at hfuel
    obtain ⟨fuel, rfl⟩ := Nat.exists_eq_add_one_of_ne_zero (show fuel ≠ 0 by omega)
    have hdrop : (value ++ ';' :: rest).drop (value.length + 1) = rest := by simp
    rw [readParams_turn hkey, cut_append hclear hafter, Option.map_some, Option.getD_some, hdrop,
      ih (by omega),
      Option.map_some]

theorem readParams_sound {fuel : Nat} {rest : Text} {params : List (Text × Text)}
    (h : readParams fuel rest = some params) : Params rest params := by
  induction fuel generalizing rest params with
  | zero =>
    cases rest with
    | nil =>
      cases h
      exact .nil
    | cons c rest => cases h
  | succ fuel ih =>
    by_cases hmem : '=' ∈ rest
    · obtain ⟨key, text, rfl, hkey⟩ := List.eq_append_cons_of_mem hmem
      rw [readParams_turn hkey] at h
      obtain ⟨params', hparams, rfl⟩ := Option.map_eq_some_iff.1 h
      cases hcut : cut '"' ';' false text with
      | none =>
        rw [hcut, Option.map_none, Option.getD_none, List.drop_eq_nil_of_le (Nat.le_succ _),
          readParams_nil] at hparams
        rw [Option.map_none, Option.getD_none]
        cases hparams
        exact .last hkey (cut_eq_none.1 hcut)
      | some parts =>
        obtain ⟨value, rest⟩ := parts
        obtain ⟨rfl, hclear, hafter⟩ := cut_eq_some.1 hcut
        have hdrop : (value ++ ';' :: rest).drop (value.length + 1) = rest := by simp
        rw [hcut, Option.map_some, Option.getD_some, hdrop] at hparams
        rw [Option.map_some, Option.getD_some]
        exact .more hkey hclear hafter (ih hparams)
    · cases rest with
      | nil =>
        cases h
        exact .nil
      | cons c rest =>
        have hspan : (c :: rest).span (· ≠ '=') = (c :: rest, []) := by
          have hall : ∀ d ∈ c :: rest, decide (d ≠ '=') = true :=
            fun d hd => decide_eq_true fun heq => hmem (heq ▸ hd)
          rw [List.span_eq_takeWhile_dropWhile, List.takeWhile_eq_self_iff.2 hall,
            List.dropWhile_eq_nil_iff.2 hall]
        rw [readParams.eq_def] at h
        simp only [hspan] at h
        cases h

/-- What stands before the colon: a name, and the parameters after a `;`. -/
inductive Head : Text → Text → List (Text × Text) → Prop
  | bare {name : Text} (hclear : Clear '"' ';' false name) : Head name name []
  | full {name rest : Text} {params : List (Text × Text)} (hclear : Clear '"' ';' false name)
      (hafter : after '"' false name = false) (hparams : Params rest params) :
        Head (name ++ ';' :: rest) name params

theorem take_before {a b : Text} {c : Char} : (a ++ c :: b).take a.length = a := by simp

theorem drop_through {a b : Text} {c : Char} : (a ++ c :: b).drop (a.length + 1) = b := by simp

def isName (name : Text) : Bool := !(trim name).isEmpty && (trim name).all isNameChar

theorem parseLine_bare {name value : Text} (hclear : Clear '"' ':' false name)
    (hafter : after '"' false name = false)
    (hnone : Clear '"' ';' false name) :
    parseLine (name ++ ':' :: value) = if isName name then some ⟨upper (trim name), [], value⟩ else none := by
  unfold parseLine
  rw [scan_eq hclear hafter, cut_eq_none.2 hnone]
  simp only [Option.none_or, Option.map_none, Option.getD_none, Nat.zero_add, take_before,
    drop_through, Nat.lt_irrefl,
    if_false, Option.map_some]
  cases hok : isName name with
  | true =>
    rw [isName, Bool.and_eq_true, Bool.not_eq_true'] at hok
    rw [hok.1, hok.2]
    rfl
  | false =>
    rw [isName, Bool.and_eq_false_iff, Bool.not_eq_false'] at hok
    rw [if_pos (by simpa using hok)]
    rfl

theorem parseLine_full {name rest value : Text} (hclear : Clear '"' ':' false (name ++ ';' :: rest))
    (hafter : after '"' false (name ++ ';' :: rest) = false) (hnone : Clear '"' ';' false name)
    (hquote : after '"' false name = false) :
    parseLine (name ++ ';' :: rest ++ ':' :: value) =
      if isName name then (readParams rest.length rest).map (⟨upper (trim name), ·, value⟩) else none := by
  have hname : (name ++ ';' :: rest ++ ':' :: value).take name.length = name := by simp
  have hlt : name.length < (name ++ ';' :: rest).length := by simp
  unfold parseLine
  rw [scan_eq hclear hafter, cut_append hnone hquote]
  simp only [Option.none_or, Option.map_some, Option.getD_some, Nat.zero_add, take_before, drop_through, hname,
    if_pos hlt]
  cases hok : isName name with
  | true =>
    rw [isName, Bool.and_eq_true, Bool.not_eq_true'] at hok
    rw [hok.1, hok.2]
    rfl
  | false =>
    rw [isName, Bool.and_eq_false_iff, Bool.not_eq_false'] at hok
    rw [if_pos (by simpa using hok)]
    rfl

variable {p : Property}

/-- **A content line.**  The colon is the first one that is not quoted, and what is before it closes
its quotations. -/
theorem parseLine_eq_some : parseLine line = some p ↔ ∃ head name,
    line = head ++ ':' :: p.value ∧ Clear '"' ':' false head ∧ after '"' false head = false ∧
      Head head name p.params ∧ isName name = true ∧ p.name = upper (trim name) := by
  constructor
  · intro h
    cases hcut : cut '"' ':' false line with
    | none =>
      unfold parseLine at h
      rw [show scan 0 false none line = ((scan 0 false none line).1, none) from
        Prod.ext rfl (scan_none (cut_eq_none.1 hcut))] at h
      cases h
    | some parts =>
      obtain ⟨head, value⟩ := parts
      obtain ⟨rfl, hclear, hafter⟩ := cut_eq_some.1 hcut
      cases hname : cut '"' ';' false head with
      | none =>
        have hnone := cut_eq_none.1 hname
        rw [parseLine_bare hclear hafter hnone, Option.ite_none_right_eq_some] at h
        obtain ⟨hok, h⟩ := h
        cases h
        exact ⟨head, head, rfl, hclear, hafter, .bare hnone, hok, rfl⟩
      | some parts =>
        obtain ⟨name, rest⟩ := parts
        obtain ⟨rfl, hnone, hquote⟩ := cut_eq_some.1 hname
        rw [parseLine_full hclear hafter hnone hquote, Option.ite_none_right_eq_some] at h
        obtain ⟨params, hparams, rfl⟩ := Option.map_eq_some_iff.1 h.2
        exact ⟨_, name, rfl, hclear, hafter, .full hnone hquote (readParams_sound hparams), h.1, rfl⟩
  · obtain ⟨upperName, params, value⟩ := p
    rintro ⟨head, name, rfl, hclear, hafter, hhead, hok, rfl⟩
    cases hhead with
    | bare hnone => rw [parseLine_bare hclear hafter hnone, if_pos hok]
    | full hnone hquote hparams =>
      rw [parseLine_full hclear hafter hnone hquote, if_pos hok, readParams_complete hparams le_rfl,
        Option.map_some]

/-! ## 3. One property -/

/-- A value that has all its quotation marks when it is written. -/
def Plain (value : Text) : Prop := '"' ∈ value → value.any isSpecial = true → value.head? = some '"'

/-- No colon of a value is left bare by the quotation marks that are written around it: where a
quotation is open already, those close it. -/
def Covered (quoted : Bool) : List (Text × Text) → Prop
  | [] => True
  | (key, value) :: params =>
    (after '"' quoted key = true → ':' ∈ value → '"' ∈ value) ∧
      Covered (after '"' quoted (key ++ value)) params

/-- What a property needs to be read back as it is. -/
def Property.Kept (p : Property) : Prop := (∀ param ∈ p.params, Plain param.2) ∧ Covered false p.params

instance (value : Text) : Decidable (Plain value) :=
  inferInstanceAs (Decidable ('"' ∈ value → value.any isSpecial = true → value.head? = some '"'))

instance decidableCovered : (params : List (Text × Text)) → (quoted : Bool) → Decidable (Covered quoted params)
  | [], _ => inferInstanceAs (Decidable True)
  | (key, value) :: params, quoted =>
    haveI := decidableCovered params (after '"' quoted (key ++ value))
    inferInstanceAs (Decidable ((after '"' quoted key = true → ':' ∈ value → '"' ∈ value) ∧
      Covered (after '"' quoted (key ++ value)) params))

instance (p : Property) : Decidable p.Kept :=
  inferInstanceAs (Decidable ((∀ param ∈ p.params, Plain param.2) ∧ Covered false p.params))

section
variable {v : Text} {quoted : Bool}

theorem unquote_cases (value : Text) : unquote value = value ∨
    '"' ∉ unquote value ∧ value = '"' :: (unquote value ++ ['"']) := by
  unfold unquote
  split
  next v =>
    split
    next h =>
      refine .inr ⟨h.2, ?_⟩
      rw [List.cons.injEq]
      exact ⟨rfl, (List.dropLast_append_getLast? _ h.1).symm⟩
    next => exact .inl rfl
  next => exact .inl rfl

theorem unquote_plain (h : '"' ∉ v) : unquote v = v := by
  obtain heq | ⟨-, heq⟩ := unquote_cases v
  · exact heq
  · exact absurd (heq ▸ List.mem_cons_self) h

theorem unquote_quoted (h : '"' ∉ v) : unquote ('"' :: (v ++ ['"'])) = v := by
  change (if (v ++ ['"']).getLast? = some '"' ∧
    '"' ∉ (v ++ ['"']).dropLast then (v ++ ['"']).dropLast else _) = v
  rw [List.getLast?_concat, List.dropLast_concat, if_pos ⟨rfl, h⟩]

@[simp] theorem unquote_unquote (value : Text) : unquote (unquote value) = unquote value := by
  obtain heq | ⟨hnone, -⟩ := unquote_cases value
  · rw [heq, heq]
  · exact unquote_plain hnone

theorem after_quoted (h : '"' ∉ v) : after '"' quoted ('"' :: (v ++ ['"'])) = quoted := by
  rw [after_cons, next_quote, after_append, after_plain h, after_cons, next_quote, after_nil, Bool.not_not]

theorem clear_quoted {stop : Char} (hstop : stop ≠ '"') (h : '"' ∉ v) :
    Clear '"' stop quoted ('"' :: (v ++ ['"'])) ↔ (stop ∈ v → quoted = false) := by
  rw [clear_cons, next_quote, clear_append, clear_plain h, clear_cons,
    and_iff_right fun heq => absurd heq.symm hstop,
    and_iff_left ⟨fun heq => absurd heq.symm hstop, trivial⟩, Bool.not_eq_true']

theorem after_unquote (value : Text) : after '"' quoted (unquote value) = after '"' quoted value := by
  obtain heq | ⟨hnone, heq⟩ := unquote_cases value
  · rw [heq]
  · rw [after_plain hnone, heq, after_quoted hnone]

theorem notMem_stripped : '"' ∉ v.filter (· != '"') := by simp

theorem writeValue_cases (value : Text) :
    writeValue value = value ∧ (value.any isSpecial = true → value.head? = some '"') ∨
      value.any isSpecial = true ∧ value.head? ≠ some '"' ∧
        writeValue value = '"' :: (value.filter (· != '"') ++ ['"']) := by
  unfold writeValue
  cases hspecial : value.any isSpecial with
  | false => exact .inl ⟨rfl, fun h => nomatch h⟩
  | true =>
    by_cases hhead : value.head? = some '"'
    · exact .inl ⟨by rw [hhead]; rfl, fun _ => hhead⟩
    · exact .inr ⟨rfl, hhead, if_pos (by simpa using hhead)⟩

theorem special_of_mem {c : Char} (hc : isSpecial c = true) (h : c ∈ v) : v.any isSpecial = true :=
  List.any_eq_true.2 ⟨c, h, hc⟩

/-- What a value is after it was written and read. -/
theorem unquote_writeValue (h : unquote v = v) : unquote (writeValue v) = v ↔ Plain v := by
  obtain ⟨hwrite, hplain⟩ | ⟨hspecial, hhead, hwrite⟩ := writeValue_cases v
  · rw [hwrite]
    exact iff_of_true h fun _ => hplain
  · rw [hwrite, unquote_quoted notMem_stripped, List.filter_eq_self]
    constructor
    · intro hall hmem
      exact absurd (hall _ hmem) (by decide)
    · intro hplain c hc
      rw [bne_iff_ne]
      rintro rfl
      exact hhead (hplain hc hspecial)

theorem after_writeValue (h : Plain v) : after '"' quoted (writeValue v) = after '"' quoted v := by
  obtain ⟨hwrite, -⟩ | ⟨hspecial, hhead, hwrite⟩ := writeValue_cases v
  · rw [hwrite]
  · have hnone : '"' ∉ v := fun hmem => hhead (h hmem hspecial)
    rw [hwrite, after_quoted notMem_stripped, after_plain hnone]

/-- A value still ends where it ended. -/
theorem writeValue_ends {value : Text} (hclear : Clear '"' ';' false value) :
    Clear '"' ';' false (writeValue (unquote value)) ∧
      (after '"' false value = false → after '"' false (writeValue (unquote value)) = false) := by
  obtain ⟨hwrite, hplain⟩ | ⟨-, -, hwrite⟩ := writeValue_cases (unquote value)
  · rw [hwrite]
    refine ⟨?_, fun h => by rw [after_unquote, h]⟩
    obtain heq | ⟨hnone, -⟩ := unquote_cases value
    · rw [heq]
      exact hclear
    · refine clear_of_notMem fun hmem => hnone ?_
      exact List.mem_of_mem_head? (hplain (special_of_mem rfl hmem))
  · rw [hwrite, clear_quoted (by decide) notMem_stripped, after_quoted notMem_stripped]
    exact ⟨fun _ => rfl, fun _ => rfl⟩

/-- Which colons of a value are bare when it is written. -/
theorem clear_writeValue {value : Text} (hclear : Clear '"' ':' quoted value) (h : Plain (unquote value)) :
    Clear '"' ':' quoted (writeValue (unquote value)) ↔ (quoted = true → ':' ∈ unquote value →
      '"' ∈ unquote value) := by
  obtain ⟨hwrite, hplain⟩ | ⟨hspecial, hhead, hwrite⟩ := writeValue_cases (unquote value)
  · rw [hwrite]
    refine iff_of_true ?_ fun _ hmem => List.mem_of_mem_head? (hplain (special_of_mem rfl hmem))
    obtain heq | ⟨hnone, -⟩ := unquote_cases value
    · rw [heq]
      exact hclear
    · exact clear_of_notMem fun hmem => hnone (List.mem_of_mem_head? (hplain (special_of_mem rfl hmem)))
  · have hnone : '"' ∉ unquote value := fun hmem => hhead (h hmem hspecial)
    have hself : (unquote value).filter (· != '"') = unquote value := by
      rw [List.filter_eq_self]
      intro c hc
      rw [bne_iff_ne]
      rintro rfl
      exact hnone hc
    rw [hwrite, hself, clear_quoted (by decide) hnone]
    cases quoted <;> simp [hnone]

end

theorem after_key (quoted : Bool) (key : Text) :
    after '"' quoted (upper (trim key)) = after '"' quoted key := by
  obtain ⟨a, b, heq, ha, hb⟩ := Lib.exists_trim Store.isWhitespace key
  have hnone : ∀ {s : Text}, (∀ c ∈ s, Store.isWhitespace c = true) → '"' ∉ s :=
    fun hs hmem => absurd (hs _ hmem) (by decide)
  rw [upper, after_map (toUpper_eq_iff (by decide))]
  conv_rhs => rw [heq, after_append, after_plain (hnone hb), after_append, after_plain (hnone ha)]
  rfl

theorem clear_key {quoted : Bool} {key : Text} (h : Clear '"' ':' quoted key) : Clear '"' ':' quoted
    (upper (trim key)) := by
  obtain ⟨a, b, heq, ha, -⟩ := Lib.exists_trim Store.isWhitespace key
  have hnone : '"' ∉ a := fun hmem => absurd (ha _ hmem) (by decide)
  rw [heq, clear_append, clear_append, after_plain hnone] at h
  rw [upper, clear_map (toUpper_eq_iff (by decide)) (toUpper_eq_iff (by decide))]
  exact h.1.2

/-- The parameters of a line as they are written, the first `;` apart. -/
def joined : List (Text × Text) → Text
  | [] => []
  | [param] => param.1 ++ '=' :: writeValue param.2
  | param :: params => param.1 ++ '=' :: (writeValue param.2 ++ ';' :: joined params)

section
variable {rest : Text} {params : List (Text × Text)} {quoted : Bool}

theorem joined_cons (key value : Text) (h : params ≠ []) :
    joined ((key, value) :: params) = key ++ '=' :: (writeValue value ++ ';' :: joined params) := by
  cases params with
  | nil => exact absurd rfl h
  | cons param params => rfl

theorem line_bare (h : p.params = []) : p.line = p.name ++ ':' :: p.value := by
  rw [Property.line, h, List.flatMap_nil, List.append_nil]

theorem line_full (h : p.params ≠ []) : p.line = p.name ++ ';' :: joined p.params ++ ':' :: p.value := by
  have hall : ∀ (params : List (Text × Text)), params ≠ [] →
      params.flatMap (fun param => ';' :: param.1 ++ '=' :: writeValue param.2) = ';' :: joined params := by
    intro params
    induction params with
    | nil => exact fun h => absurd rfl h
    | cons param params ih =>
      intro _
      by_cases hnil : params = []
      · rw [hnil, List.flatMap_singleton]
        rfl
      · rw [List.flatMap_cons, ih hnil, joined_cons _ _ hnil]
        simp
  rw [Property.line, hall _ h]

/-- What is written is always parameters again, though not always the same. -/
theorem params_joined (h : Params rest params) :
    Params (joined params) (params.map fun param => (param.1, unquote (writeValue param.2))) := by
  have hname (key : Text) : upper (trim (upper (trim key))) = upper (trim key) := by
    rw [trim_upper, trim_trim, upper_upper]
  have hequal {key : Text} (hkey : '=' ∉ key) : '=' ∉ upper (trim key) := fun hmem =>
    hkey (mem_of_mem_trim ((mem_upper_iff (by decide) _).1 hmem))
  induction h with
  | nil => exact .nil
  | @last key value hkey hclear =>
    rw [List.map_singleton, joined]
    conv =>
      arg 2
      rw [← hname key]
    exact .last (hequal hkey) (writeValue_ends hclear).1
  | @more key value rest params hkey hclear hafter hrest ih =>
    rw [List.map_cons]
    by_cases hnil : params = []
    · subst hnil
      rw [joined, List.map_nil]
      conv =>
        arg 2
        rw [← hname key]
      exact .last (hequal hkey) (writeValue_ends hclear).1
    · rw [joined_cons _ _ hnil]
      conv =>
        arg 2
        rw [← hname key]
      exact .more (hequal hkey) (writeValue_ends hclear).1 ((writeValue_ends hclear).2 hafter) ih

theorem unquote_of_params (h : Params rest params) : ∀ param ∈ params, unquote param.2 = param.2 := by
  induction h with
  | nil => exact fun _ h => absurd h List.not_mem_nil
  | last _ _ =>
    intro param hmem
    rw [List.mem_singleton.1 hmem]
    exact unquote_unquote _
  | more _ _ _ _ ih =>
    intro param hmem
    obtain rfl | hmem := List.mem_cons.1 hmem
    · exact unquote_unquote _
    · exact ih param hmem

/-- The values are read back when they keep their quotation marks. -/
theorem reread_params (h : Params rest params) :
    params.map (fun param => (param.1, unquote (writeValue param.2))) = params ↔ ∀ param ∈ params,
        Plain param.2 := by
  have hvalue := unquote_of_params h
  constructor
  · intro heq param hmem
    have := List.map_eq_map_iff.1 (heq.trans (List.map_id _).symm) param hmem
    exact (unquote_writeValue (hvalue _ hmem)).1 (congrArg Prod.snd this)
  · intro hplain
    refine (List.map_congr_left fun param hmem => ?_).trans (List.map_id _)
    exact Prod.ext rfl ((unquote_writeValue (hvalue _ hmem)).2 (hplain _ hmem))

/-- The colons of the parameters stay quoted when they are written, those that were covered only. -/
theorem clear_joined (h : Params rest params) (hplain : ∀ param ∈ params, Plain param.2)
    (hclear : Clear '"' ':' quoted rest) :
    (Clear '"' ':' quoted (joined params) ↔ Covered quoted params) ∧
      after '"' quoted (joined params) = after '"' quoted rest := by
  have hequal : ∀ quoted, next '"' quoted '=' = quoted := fun _ => next_ne (by decide)
  have hsemi : ∀ quoted, next '"' quoted ';' = quoted := fun _ => next_ne (by decide)
  have hne : ('=' : Char) ≠ ':' := by decide
  have hne' : (';' : Char) ≠ ':' := by decide
  induction h generalizing quoted with
  | nil => exact ⟨Iff.rfl, rfl⟩
  | @last key value hkey _ =>
    rw [clear_append, clear_cons, hequal] at hclear
    have hv : Plain (unquote value) := hplain _ List.mem_cons_self
    rw [joined, clear_append, clear_cons, hequal, after_append, after_append, after_cons,
      after_cons, hequal, hequal,
      after_writeValue hv, after_unquote, after_key, clear_writeValue hclear.2.2 hv, Covered,
        Covered, after_key]
    exact ⟨by simp [clear_key hclear.1, hne], rfl⟩
  | @more key value rest params hkey _ _ hrest ih =>
    rw [clear_append, clear_cons, hequal, clear_append, clear_cons, hsemi] at hclear
    have hv : Plain (unquote value) := hplain _ List.mem_cons_self
    obtain ⟨hiff, hafter⟩ := ih (fun param hmem => hplain _ (List.mem_cons_of_mem _ hmem)) hclear.2.2.2.2
    by_cases hnil : params = []
    · subst hnil
      cases hrest
      rw [joined, clear_append, clear_cons, hequal, after_append, after_append, after_cons,
        after_cons, after_append,
        after_cons, hequal, hequal, hsemi, after_nil, after_writeValue hv, after_unquote, after_key,
        clear_writeValue hclear.2.2.1 hv, Covered, Covered, after_key]
      exact ⟨by simp [clear_key hclear.1, hne], rfl⟩
    · rw [joined_cons _ _ hnil, clear_append, clear_cons, hequal, clear_append, clear_cons, hsemi,
        after_append,
        after_append, after_cons, after_cons, after_append, after_append, after_cons, after_cons,
          hequal, hequal, hsemi,
        hsemi, after_writeValue hv, after_unquote, after_key, clear_writeValue hclear.2.2.1 hv,
          hiff, Covered, after_key,
        after_append, after_unquote, after_key]
      exact ⟨by simp [clear_key hclear.1, hne, hne'], hafter⟩

/-- The parameters come after the first bare `;`. -/
theorem Head.written {name name' : Text} (hclear : Clear '"' ';' false name)
    (hafter : after '"' false name = false)
    (h : Head (name ++ ';' :: rest) name' params) : Params rest params := by
  generalize heq : name ++ ';' :: rest = head at h
  cases h with
  | bare hnone =>
    rw [← heq, clear_append, hafter, clear_cons] at hnone
    exact absurd (hnone.2.1 rfl) Bool.false_ne_true
  | full hnone hquote hparams =>
    have hcut : cut '"' ';' false (name ++ ';' :: rest) = some (_, _) := heq ▸ cut_append hnone hquote
    rw [cut_append hclear hafter] at hcut
    cases hcut
    exact hparams

/-- What parameters a text has is settled. -/
theorem params_unique {params' : List (Text × Text)} (h : Params rest params)
    (h' : Params rest params') : params = params' :=
  Option.some.inj ((readParams_complete h le_rfl).symm.trans (readParams_complete h' le_rfl))

end

/-- A name as it stands in what was read. -/
structure IsNamed (name : Text) : Prop where
  isName : isName name = true
  trimmed : trim name = name
  uppercase : upper name = name

theorem isNameChar_toUpper (c : Char) : isNameChar c.toUpper = isNameChar c :=
    toUpper_kind isNameChar (by decide) c

theorem isNamed_upper {name : Text} (h : isName name = true) : IsNamed (upper (trim name)) := by
  have htrim : trim (upper (trim name)) = upper (trim name) := by rw [trim_upper, trim_trim]
  refine ⟨?_, htrim, upper_upper _⟩
  unfold isName at h ⊢
  rw [htrim]
  unfold upper
  rw [List.isEmpty_map, List.all_map, show isNameChar ∘ Char.toUpper =
    isNameChar from funext isNameChar_toUpper]
  exact h

namespace IsNamed

variable {name : Text} (h : IsNamed name)

include h

theorem ne_nil : name ≠ [] := by
  have := h.isName
  rw [Itip.isName, h.trimmed, Bool.and_eq_true, Bool.not_eq_true'] at this
  rintro rfl
  exact absurd this.1 (by decide)

theorem isNameChar {c : Char} (hc : c ∈ name) : isNameChar c = true := by
  have := h.isName
  rw [Itip.isName, h.trimmed, Bool.and_eq_true] at this
  exact List.all_eq_true.1 this.2 c hc

theorem notMem {c : Char} (hc : Itip.isNameChar c = false) : c ∉ name := fun hmem =>
  absurd (h.isNameChar hmem) (by rw [hc]; exact Bool.false_ne_true)

theorem quote_notMem : '"' ∉ name := h.notMem rfl

end IsNamed

theorem isNamed_of_parse (h : parseLine line = some p) : IsNamed p.name := by
  obtain ⟨head, name, -, -, -, -, hok, hname⟩ := parseLine_eq_some.1 h
  rw [hname]
  exact isNamed_upper hok

theorem scan_found {i n : Nat} {quoted : Bool} : (scan i quoted (some n) line).1 = some n := by
  induction line generalizing i quoted with
  | nil => rfl
  | cons c line ih =>
    have hfound : ¬ (c = ';' ∧ quoted = false ∧ some n = none) := fun h => Option.some_ne_none _ h.2.2
    rw [scan, if_neg hfound]
    split
    · exact ih
    · split
      · rfl
      · exact ih

/-- The name of a line that begins with one. -/
theorem name_of_parse {name text : Text} {c : Char} (hname : IsNamed name) (hc : c = ':' ∨ c = ';')
    (h : parseLine (name ++ c :: text) = some p) : p.name = name := by
  have hscan : ∀ i, (scan i false none (name ++ c :: text)).2 = none ∨
      ((scan i false none (name ++ c :: text)).1).getD (((scan i false none (name ++ c :: text)).2).getD 0) =
        i + name.length := by
    have hplain : ∀ d ∈ name, ¬ d = '"' ∧ ¬ d = ';' ∧ ¬ d = ':' := by
      intro d hd
      have hchar := hname.isNameChar hd
      refine ⟨?_, ?_, ?_⟩ <;> rintro rfl <;> exact absurd hchar (by decide)
    clear hname h
    induction name with
    | nil =>
      intro i
      rw [List.nil_append]
      obtain rfl | rfl := hc
      · exact .inr rfl
      · right
        rw [scan, if_neg (by decide), if_pos ⟨rfl, rfl, rfl⟩, scan_found]
        rfl
    | cons d name ih =>
      intro i
      obtain ⟨h1, h2, h3⟩ := hplain d List.mem_cons_self
      rw [List.cons_append, scan, if_neg h1, if_neg fun h => h2 h.1, if_neg fun h => h3 h.1, List.length_cons,
        Nat.add_comm name.length, ← Nat.add_assoc]
      exact ih (fun d hd => hplain d (List.mem_cons_of_mem _ hd)) (i + 1)
  unfold parseLine at h
  split at h
  next => cases h
  next nameEnd colon heq =>
    have hend := hscan 0
    rw [heq] at hend
    obtain hnone | hend := hend
    · cases hnone
    · rw [Option.getD_some, Nat.zero_add] at hend
      simp only [hend, List.take_left] at h
      split at h
      next => cases h
      next =>
        obtain ⟨params, -, rfl⟩ := Option.map_eq_some_iff.1 h
        change upper (trim name) = name
        rw [hname.trimmed, hname.uppercase]

/-- **One property.**  It is read back as it was if and only if no value loses its quotation marks
and no colon its quotation. -/
theorem parseLine_line (h : parseLine line = some p) :
    parseLine p.line = some p ↔ p.Kept := by
  have hnamed := isNamed_of_parse h
  obtain ⟨head, name, -, hclear, hafter, hhead, -, -⟩ := parseLine_eq_some.1 h
  have hself : p.name = upper (trim p.name) := by rw [hnamed.trimmed, hnamed.uppercase]
  have hquote : after '"' false p.name = false := after_plain hnamed.quote_notMem
  have hcolon : Clear '"' ':' false p.name := clear_of_notMem (hnamed.notMem rfl)
  have hsemi : Clear '"' ';' false p.name := clear_of_notMem (hnamed.notMem rfl)
  by_cases hnil : p.params = []
  · refine iff_of_true ?_ ⟨by rw [hnil]; exact fun _ h => absurd h List.not_mem_nil, by rw [hnil]; trivial⟩
    rw [line_bare hnil]
    exact parseLine_eq_some.2 ⟨p.name, p.name, rfl, hcolon, hquote, hnil ▸ .bare hsemi, hnamed.isName, hself⟩
  · obtain ⟨rest, hrest, hclear', hafter'⟩ : ∃ rest, Params rest p.params ∧ Clear '"' ':' false rest ∧
        after '"' false rest = false := by
      generalize p.params = params at hhead hnil
      cases hhead with
      | bare => exact absurd rfl hnil
      | @full name rest params _ hname hrest =>
        rw [clear_append, clear_cons, hname] at hclear
        rw [after_append, after_cons, hname] at hafter
        exact ⟨rest, hrest, hclear.2.2, hafter⟩
    rw [line_full hnil]
    constructor
    · intro hread
      obtain ⟨head', name', hline, hclearHead, hafterHead, hhead', -, -⟩ := parseLine_eq_some.1 hread
      obtain rfl := List.append_cancel_right hline
      rw [clear_append, hquote, clear_cons] at hclearHead
      have hparams : Params (joined p.params) p.params := hhead'.written hsemi hquote
      have hplain := (reread_params hrest).1 (params_unique (params_joined hrest) hparams)
      exact ⟨hplain, ((clear_joined hrest hplain hclear').1).1 hclearHead.2.2⟩
    · rintro ⟨hplain, hcovered⟩
      have hparams := params_joined hrest
      rw [(reread_params hrest).2 hplain] at hparams
      obtain ⟨hiff, hsame⟩ := clear_joined hrest hplain hclear'
      refine parseLine_eq_some.2 ⟨p.name ++ ';' :: joined p.params, p.name, rfl, ?_, ?_,
        .full hsemi hquote hparams,
        hnamed.isName, hself⟩
      · rw [clear_append, hquote, clear_cons]
        exact ⟨hcolon, fun heq => absurd heq (by decide), hiff.2 hcovered⟩
      · rw [after_append, hquote, after_cons]
        exact hsame.trans hafter'

/-! ## 4. Folding -/

def octets (text : Text) : Nat := (text.map Char.utf8Size).sum

theorem octets_cons (c : Char) (text : Text) : octets (c :: text) = c.utf8Size + octets text := List.sum_cons

/-- The physical lines a line is cut into: the first one, and those that go on with it. -/
def physical (first : Text) (pieces : List Text) : List Text :=
  (first ++ ['\r']) :: pieces.map fun piece => ' ' :: (piece ++ ['\r'])

/-- Cut between characters, and never too late. -/
theorem foldFrom_pieces (width : Nat) (line : Text) : ∃ first pieces, line = first ++ pieces.flatten ∧
    foldFrom width line = (physical first pieces).flatMap (· ++ ['\n']) ∧
    (first ≠ [] → width + octets first ≤ foldAt) ∧ (∀ piece ∈ pieces, 1 + octets piece ≤ foldAt) ∧
    ∀ c ∈ line.head?, width = 0 → first.head? = some c := by
  induction line generalizing width with
  | nil => exact ⟨[], [], rfl, rfl, fun h => absurd rfl h, fun _ h => absurd h List.not_mem_nil,
    fun _ h => nomatch h⟩
  | cons c line ih =>
    have hsize : c.utf8Size ≤ 4 := Char.utf8Size_le_four c
    rw [foldFrom]
    by_cases hfit : width + c.utf8Size > foldAt
    · obtain ⟨first, pieces, rfl, hfold, hfirst, hpieces, -⟩ := ih (1 + c.utf8Size)
      refine ⟨[], (c :: first) :: pieces, by simp, ?_, fun h => absurd rfl h, ?_, ?_⟩
      · rw [if_pos hfit, hfold]
        simp [physical]
      · intro piece hpiece
        obtain rfl | hpiece := List.mem_cons.1 hpiece
        · rw [octets_cons, ← Nat.add_assoc]
          by_cases hnil : first = []
          · rw [hnil]
            change 1 + c.utf8Size + 0 ≤ 75
            omega
          · exact hfirst hnil
        · exact hpieces piece hpiece
      · intro d _ hwidth
        change width + c.utf8Size > 75 at hfit
        omega
    · obtain ⟨first, pieces, rfl, hfold, hfirst, hpieces, -⟩ := ih (width + c.utf8Size)
      refine ⟨c :: first, pieces, rfl, ?_, fun _ => ?_, hpieces, fun d hd _ => hd⟩
      · rw [if_neg hfit, hfold]
        rfl
      · rw [octets_cons, ← Nat.add_assoc]
        by_cases hnil : first = []
        · rw [hnil]
          exact Nat.le_of_not_lt hfit
        · exact hfirst hnil

/-- A text that may be a content line: one line, that does not look like more of the line before. -/
structure IsLine (line : Text) : Prop where
  ne_nil : line ≠ []
  newline : '\n' ∉ line
  space : line.head? ≠ some ' '
  tab : line.head? ≠ some '\t'

theorem stripCr_cr (text : Text) : stripCr (text ++ ['\r']) = text := by
  rw [stripCr, List.getLast?_concat, if_pos rfl, List.dropLast_concat]

variable {lines : List Text}

theorem addRaw_first {first : Text} (hne : first ≠ []) (hspace : first.head? ≠ some ' ')
    (htab : first.head? ≠ some '\t') (hlen : lines.length < maxLines) :
    addRaw lines (first ++ ['\r']) = some (lines ++ [first]) := by
  obtain ⟨c, rest, rfl⟩ := List.exists_cons_of_ne_nil hne
  have hc : ¬ (c = ' ' ∨ c = '\t') := by
    rintro (rfl | rfl)
    · exact hspace rfl
    · exact htab rfl
  unfold addRaw
  rw [stripCr_cr]
  simp only [if_neg hc, if_neg (Nat.not_le.2 hlen)]

theorem addRaw_more {last piece : Text} :
    addRaw (lines ++ [last]) (' ' :: (piece ++ ['\r'])) = some (lines ++ [last ++ piece]) := by
  unfold addRaw
  rw [← List.cons_append, stripCr_cr]
  simp

theorem foldlM_physical {last : Text} (pieces : List Text) (raws : List Text) :
    (pieces.map (fun piece => ' ' :: (piece ++ ['\r'])) ++ raws).foldlM addRaw (lines ++ [last]) =
      raws.foldlM addRaw (lines ++ [last ++ pieces.flatten]) := by
  induction pieces generalizing last with
  | nil => rw [List.map_nil, List.nil_append, List.flatten_nil, List.append_nil]
  | cons piece pieces ih =>
    rw [List.map_cons, List.cons_append, List.foldlM_cons, addRaw_more]
    change (pieces.map _ ++ raws).foldlM addRaw (lines ++ [last ++ piece]) = _
    rw [ih, List.flatten_cons, List.append_assoc]

theorem splitOn_physical {raws : List Text} (h : ∀ raw ∈ raws, '\n' ∉ raw) (text : Text) :
    (raws.flatMap (· ++ ['\n']) ++ text).splitOn '\n' = raws ++ text.splitOn '\n' := by
  induction raws with
  | nil => rfl
  | cons raw raws ih =>
    rw [List.flatMap_cons, List.append_assoc, List.append_assoc, List.singleton_append,
      List.splitOn_append_cons_self_of_not_mem (h _ List.mem_cons_self),
      ih fun raw hraw => h raw (List.mem_cons_of_mem _ hraw), List.cons_append]

/-- **One content line.**  What is folded is unfolded, and no physical line is too long. -/
theorem fold_spec (h : IsLine line) (text : Text) :
    ∃ raws, (fold line ++ text).splitOn '\n' = raws ++ text.splitOn '\n' ∧
      (∀ raw ∈ raws, octets (stripCr raw) ≤ foldAt) ∧
      ∀ (lines : List Text) (more : List Text), lines.length < maxLines →
        (raws ++ more).foldlM addRaw lines = more.foldlM addRaw (lines ++ [line]) := by
  obtain ⟨first, pieces, rfl, hfold, hfirst, hpieces, hhead⟩ := foldFrom_pieces 0 line
  obtain ⟨c, rest, hc⟩ := List.exists_cons_of_ne_nil h.ne_nil
  have hhead : first.head? = some c := hhead c (by rw [hc]; rfl) rfl
  have hsame : (first ++ pieces.flatten).head? = first.head? := by rw [hc, hhead]; rfl
  have hne : first ≠ [] := by
    rintro rfl
    cases hhead
  have hnewline := h.newline
  rw [List.mem_append, not_or] at hnewline
  refine ⟨physical first pieces, ?_, ?_, fun lines more hlen => ?_⟩
  · rw [fold, hfold]
    refine splitOn_physical (fun raw hraw hmem => ?_) text
    obtain rfl | hraw := List.mem_cons.1 hraw
    · simp [hnewline.1] at hmem
    · obtain ⟨piece, hpiece, rfl⟩ := List.mem_map.1 hraw
      have hnone : '\n' ∉ piece := fun hin => hnewline.2 (List.mem_flatten.2 ⟨piece, hpiece, hin⟩)
      simp [hnone] at hmem
  · intro raw hraw
    obtain rfl | hraw := List.mem_cons.1 hraw
    · rw [stripCr_cr]
      have := hfirst hne
      rwa [Nat.zero_add] at this
    · obtain ⟨piece, hpiece, rfl⟩ := List.mem_map.1 hraw
      rw [← List.cons_append, stripCr_cr, octets_cons]
      exact hpieces piece hpiece
  · rw [physical, List.cons_append, List.foldlM_cons,
      addRaw_first hne (hsame ▸ h.space) (hsame ▸ h.tab) hlen]
    exact foldlM_physical pieces more

/-- Content lines, written one after another. -/
theorem unfold_lines (h : ∀ line ∈ lines, IsLine line) (hlen : lines.length ≤ maxLines) :
    unfold (lines.flatMap fold) = some lines ∧
      ∀ raw ∈ (lines.flatMap fold).splitOn '\n', octets (stripCr raw) ≤ foldAt := by
  have hall : ∀ done : List Text, done.length + lines.length ≤ maxLines →
      ((lines.flatMap fold).splitOn '\n').foldlM addRaw done = some (done ++ lines) ∧
        ∀ raw ∈ (lines.flatMap fold).splitOn '\n', octets (stripCr raw) ≤ foldAt := by
    induction lines with
    | nil =>
      intro done _
      rw [List.flatMap_nil, List.splitOn_nil, List.append_nil]
      refine ⟨rfl, fun raw hraw => ?_⟩
      rw [List.mem_singleton.1 hraw]
      exact Nat.zero_le _
    | cons line lines ih =>
      intro done hdone
      rw [List.length_cons] at hdone
      obtain ⟨raws, hsplit, hoctets, hadd⟩ := fold_spec (h _ List.mem_cons_self) (lines.flatMap fold)
      obtain ⟨hrest, hoctets'⟩ := ih (fun line hline => h line (List.mem_cons_of_mem _ hline)) (by
        rw [List.length_cons] at hlen
        omega) (done ++ [line]) (by
        rw [List.length_append, List.length_singleton]
        omega)
      rw [List.flatMap_cons, hsplit, hadd done _ (by omega), hrest, List.append_assoc, List.singleton_append]
      refine ⟨rfl, fun raw hraw => ?_⟩
      obtain hraw | hraw := List.mem_append.1 hraw
      · exact hoctets raw hraw
      · exact hoctets' raw hraw
  obtain ⟨hunfold, hoctets⟩ := hall [] (by rw [List.length_nil, Nat.zero_add]; exact hlen)
  rw [List.nil_append] at hunfold
  exact ⟨hunfold, hoctets⟩

/-! ## 5. The tree -/

mutual

/-- The content lines of a component, those that open and close it with it. -/
def Component.flat : Component → List Property
  | .mk name properties components =>
    ⟨«begin», [], name⟩ :: (properties ++ flatAll components ++ [⟨«end», [], name⟩])

def flatAll : List Component → List Property
  | [] => []
  | c :: components => c.flat ++ flatAll components

end

mutual

/-- The tree with other properties in it. -/
def Component.map (f : Property → Property) : Component → Component
  | .mk name properties components => .mk name (properties.map f) (mapAll f components)

def mapAll (f : Property → Property) : List Component → List Component
  | [] => []
  | c :: components => c.map f :: mapAll f components

end

/-- A property that is neither the beginning nor the end of a component. -/
def Ordinary (p : Property) : Prop := p.name ≠ «begin» ∧ p.name ≠ «end»

/-- The line that begins a component, or ends it. -/
inductive Marker : Property → Prop
  | opens {name : Text} (hnewline : '\n' ∉ name) : Marker ⟨«begin», [], name⟩
  | closes {name : Text} (hnewline : '\n' ∉ name) : Marker ⟨«end», [], name⟩

structure Filled (good : Property → Prop) (inner : Component → Prop) (c : Component) : Prop where
  uppercase : upper c.name = c.name
  newline : '\n' ∉ c.name
  properties : ∀ p ∈ c.properties, good p
  components : ∀ d ∈ c.components, inner d

/-- A component that is closed, at most `n` deep. -/
def Fits (good : Property → Prop) : Nat → Component → Prop
  | 0, _ => False
  | n + 1, c => trim c.name = c.name ∧ Filled good (Fits good n) c

/-- A component, closed into the one around it. -/
def close (c : Component) : List Component → Reading
  | [] => ⟨[], some c⟩
  | parent :: stack => ⟨parent.addComponent c :: stack, none⟩

section
variable {good good' : Property → Prop} {c : Component} {n : Nat} {stack : List Component}

theorem flatAll_eq (components : List Component) : flatAll components = components.flatMap Component.flat := by
  induction components with
  | nil => rfl
  | cons c components ih => rw [flatAll, ih, List.flatMap_cons]

theorem mapAll_eq (f : Property → Property) (components : List Component) :
    mapAll f components = components.map (Component.map f) := by
  induction components with
  | nil => rfl
  | cons c components ih => rw [mapAll, ih, List.map_cons]

/-- What is written are the content lines. -/
theorem write_eq (hfits : Fits good n c) : c.write = (c.flat.map Property.line).flatMap fold := by
  induction n generalizing c with
  | zero => exact hfits.elim
  | succ n ih =>
    obtain ⟨name, properties, components⟩ := c
    have hall : ∀ cs : List Component, (∀ d ∈ cs, Fits good n d) →
        writeAll cs = ((flatAll cs).map Property.line).flatMap fold := by
      intro cs
      induction cs with
      | nil => exact fun _ => rfl
      | cons d cs ihcs =>
        intro hcs
        rw [writeAll, flatAll, List.map_append, List.flatMap_append, ih (hcs d List.mem_cons_self),
          ihcs fun d hd => hcs d (List.mem_cons_of_mem _ hd)]
    have hproperties : properties.flatMap Property.write = (properties.map Property.line).flatMap fold := by
      rw [List.flatMap_map]
      rfl
    rw [Component.write, Component.flat, hall components hfits.2.components, hproperties,
      List.map_cons, List.map_append,
      List.map_append, List.flatMap_cons, List.flatMap_append, List.flatMap_append, List.map_singleton,
      List.flatMap_singleton, ← List.append_assoc, ← List.append_assoc]
    rfl

theorem Fits.map {f : Property → Property} (hf : ∀ p, good p → good' (f p)) (hfits : Fits good n c) :
    Fits good' n (c.map f) := by
  induction n generalizing c with
  | zero => exact hfits
  | succ n ih =>
    obtain ⟨name, properties, components⟩ := c
    obtain ⟨htrim, huppercase, hnewline, hproperties, hcomponents⟩ := hfits
    rw [Component.map, mapAll_eq]
    refine ⟨htrim, huppercase, hnewline, fun p hp => ?_, fun d hd => ?_⟩
    · obtain ⟨q, hq, rfl⟩ := List.mem_map.1 hp
      exact hf q (hproperties q hq)
    · obtain ⟨e, he, rfl⟩ := List.mem_map.1 hd
      exact ih (hcomponents e he)

theorem Fits.imp (himp : ∀ p, good p → good' p) (hfits : Fits good n c) : Fits good' n c := by
  induction n generalizing c with
  | zero => exact hfits
  | succ n ih =>
    obtain ⟨htrim, huppercase, hnewline, hproperties, hcomponents⟩ := hfits
    exact ⟨htrim, huppercase, hnewline, fun p hp => himp p (hproperties p hp),
      fun d hd => ih (hcomponents d hd)⟩

theorem flat_map {f : Property → Property} (hf : ∀ p, Marker p → f p = p) (hfits : Fits good n c) :
    (c.map f).flat = c.flat.map f := by
  induction n generalizing c with
  | zero => exact hfits.elim
  | succ n ih =>
    obtain ⟨name, properties, components⟩ := c
    have hnewline : '\n' ∉ name := hfits.2.newline
    have hall : (components.map (Component.map f)).flatMap Component.flat =
      (components.flatMap Component.flat).map f := by
      rw [List.flatMap_map, List.map_flatMap]
      exact List.flatMap_congr fun d hd => ih (hfits.2.components d hd)
    rw [Component.map, mapAll_eq, Component.flat, Component.flat, flatAll_eq, flatAll_eq, hall, List.map_cons,
      List.map_append, List.map_append, List.map_singleton, hf _ (.opens hnewline), hf _ (.closes hnewline)]

theorem mem_flat (hfits : Fits good n c) (h : p ∈ c.flat) : good p ∨ Marker p := by
  induction n generalizing c with
  | zero => exact hfits.elim
  | succ n ih =>
    obtain ⟨name, properties, components⟩ := c
    obtain ⟨-, -, hnewline, hproperties, hcomponents⟩ := hfits
    rw [Component.flat, flatAll_eq, List.mem_cons, List.mem_append, List.mem_append, List.mem_singleton] at h
    obtain rfl | (hp | hp) | rfl := h
    · exact .inr (.opens hnewline)
    · exact .inl (hproperties p hp)
    · obtain ⟨d, hd, hp⟩ := List.mem_flatMap.1 hp
      exact ih (hcomponents d hd) hp
    · exact .inr (.closes hnewline)

theorem foldlM_properties {name : Text} {components : List Component} (properties done : List Property)
    (h : ∀ p ∈ properties, Ordinary p) :
    properties.foldlM addProperty ⟨.mk name done components :: stack, none⟩ =
      some ⟨.mk name (done ++ properties) components :: stack, none⟩ := by
  induction properties generalizing done with
  | nil => rw [List.append_nil]; rfl
  | cons p properties ih =>
    obtain ⟨hbegin, hend⟩ := h p List.mem_cons_self
    rw [List.foldlM_cons, addProperty, if_neg hbegin, if_neg hend]
    change properties.foldlM addProperty ⟨.mk name (done ++ [p]) components :: stack, none⟩ = _
    rw [ih _ fun p hp => h p (List.mem_cons_of_mem _ hp), List.append_assoc, List.singleton_append]

/-- The content lines of a component make it again. -/
theorem foldlM_flat (hfits : Fits Ordinary n c) (hlen : stack.length + n ≤ maxDepth) :
    c.flat.foldlM addProperty ⟨stack, none⟩ = some (close c stack) := by
  induction n generalizing c stack with
  | zero => exact hfits.elim
  | succ n ih =>
    obtain ⟨name, properties, components⟩ := c
    obtain ⟨htrim, huppercase, -, hproperties, hcomponents⟩ := hfits
    have hall : ∀ (cs done : List Component), (∀ d ∈ cs, Fits Ordinary n d) →
        (flatAll cs).foldlM addProperty ⟨.mk name properties done :: stack, none⟩ =
          some ⟨.mk name properties (done ++ cs) :: stack, none⟩ := by
      intro cs
      induction cs with
      | nil =>
        intro done _
        rw [List.append_nil]
        rfl
      | cons d cs ihcs =>
        intro done hcs
        rw [flatAll, List.foldlM_append, ih (hcs d List.mem_cons_self) (by
          rw [List.length_cons]
          omega)]
        change (flatAll cs).foldlM addProperty ⟨.mk name properties (done ++ [d]) :: stack, none⟩ = _
        rw [ihcs _ fun d hd => hcs d (List.mem_cons_of_mem _ hd), List.append_assoc, List.singleton_append]
    have hopen : addProperty ⟨stack, none⟩ ⟨«begin», [], name⟩ = some ⟨.mk name [] [] :: stack, none⟩ := by
      have hroom : ¬ ((none : Option Component).isSome = true ∨ stack.length ≥ maxDepth) := by
        rintro (h | h)
        · cases h
        · omega
      rw [addProperty, if_pos rfl, if_neg hroom, Component.new]
      simp only [show upper name = name from huppercase]
    have hclose : addProperty ⟨.mk name properties components :: stack, none⟩ ⟨«end», [], name⟩ =
        some (close (.mk name properties components) stack) := by
      have hname : eqIgnoreAsciiCase name (trim name) = true := by
        rw [show trim name = name from htrim]
        exact beq_self_eq_true _
      rw [addProperty, if_neg (show «end» ≠ «begin» by decide), if_pos rfl]
      simp only [Component.name, hname]
      cases stack <;> rfl
    rw [Component.flat, List.foldlM_cons, hopen]
    change (properties ++ flatAll components ++ _).foldlM addProperty ⟨.mk name [] [] :: stack, none⟩ = _
    rw [List.foldlM_append, List.foldlM_append, foldlM_properties properties [] hproperties]
    change ((flatAll components).foldlM addProperty ⟨.mk name properties [] :: stack, none⟩ >>= _) = _
    rw [hall components [] hcomponents]
    change [_].foldlM addProperty ⟨.mk name properties components :: stack, none⟩ = _
    rw [List.foldlM_cons, hclose]
    rfl

end

/-! ## 6. What is read -/

/-- A property as it comes out of a content line. -/
structure Read (p : Property) : Prop where
  ordinary : Ordinary p
  line : ∃ line, '\n' ∉ line ∧ parseLine line = some p

/-- What a content line does to what was read before it. -/
theorem addProperty_cases {s s' : Reading} (h : addProperty s p = some s') :
    (p.name = «begin» ∧ s.root = none ∧ s.stack.length < maxDepth ∧
      s' = ⟨Component.new p.value :: s.stack, none⟩) ∨
    (p.name = «end» ∧ ∃ done stack, s.stack = done :: stack ∧ upper done.name = upper (trim p.value) ∧
      (stack = [] ∧ s' = ⟨[], some done⟩ ∨
        ∃ parent rest, stack = parent :: rest ∧ s' = ⟨parent.addComponent done :: rest, s.root⟩)) ∨
    (Ordinary p ∧ ∃ top stack, s.stack = top :: stack ∧ s' = ⟨top.addProperty p :: stack, s.root⟩) := by
  obtain ⟨stack, root⟩ := s
  unfold addProperty at h
  split at h
  next hbegin =>
    left
    split at h
    next => cases h
    next hroom =>
      cases h
      rw [not_or, Bool.not_eq_true, Option.isSome_eq_false_iff, Option.isNone_iff_eq_none, not_le] at hroom
      exact ⟨hbegin, hroom.1, hroom.2, by rw [hroom.1]⟩
  next hbegin =>
    right
    split at h
    next hend =>
      left
      split at h
      next => cases h
      next done stack hstack =>
        split at h
        next => cases h
        next hname =>
          rw [Bool.not_eq_true', Bool.not_eq_false] at hname
          refine ⟨hend, done, stack, hstack, eq_of_beq hname, ?_⟩
          split at h
          next parent rest => exact .inr ⟨parent, rest, rfl, (Option.some.inj h).symm⟩
          next => exact .inl ⟨rfl, (Option.some.inj h).symm⟩
    next hend =>
      right
      split at h
      next => cases h
      next top stack hstack => exact ⟨⟨hbegin, hend⟩, top, stack, hstack, (Option.some.inj h).symm⟩

/-- Components that are open, each no deeper than what is around it leaves room for. -/
def Stacked : List Component → Prop
  | [] => True
  | c :: rest => (rest.length < maxDepth ∧ Filled Read (Fits Read (maxDepth - 1 - rest.length)) c) ∧
    Stacked rest

/-- What holds after `count` content lines. -/
structure Sane (s : Reading) (count : Nat) : Prop where
  stacked : Stacked s.stack
  root : ∀ c ∈ s.root, s.stack = [] ∧ Fits Read maxDepth c
  count : count = (s.stack.map fun c => c.flat.length - 1).sum + (s.root.map fun c => c.flat.length).getD 0

section
variable {c d : Component} {p : Property} {s s' : Reading} {count : Nat} {good : Property → Prop}
  {inner : Component → Prop}

theorem length_flat_pos (c : Component) : 0 < c.flat.length := by
  obtain ⟨name, properties, components⟩ := c
  rw [Component.flat, List.length_cons]
  exact Nat.succ_pos _

theorem length_flat_new (name : Text) : (Component.new name).flat.length = 2 := rfl

theorem length_flat_addProperty : (c.addProperty p).flat.length = c.flat.length + 1 := by
  obtain ⟨name, properties, components⟩ := c
  simp only [Component.addProperty, Component.flat, List.length_cons, List.length_append, List.length_nil]
  omega

theorem length_flat_addComponent : (c.addComponent d).flat.length = c.flat.length + d.flat.length := by
  obtain ⟨name, properties, components⟩ := c
  simp only [Component.addComponent, Component.flat, flatAll_eq, List.flatMap_append, List.flatMap_singleton,
    List.length_cons, List.length_append, List.length_nil]
  omega

theorem Filled.addProperty (h : Filled good inner c) (hp : good p) : Filled good inner (c.addProperty p) := by
  obtain ⟨name, properties, components⟩ := c
  refine ⟨h.uppercase, h.newline, fun q hq => ?_, h.components⟩
  obtain hq | hq := List.mem_append.1 hq
  · exact h.properties q hq
  · rw [List.mem_singleton.1 hq]
    exact hp

theorem Filled.addComponent (h : Filled good inner c) (hd : inner d) :
    Filled good inner (c.addComponent d) := by
  obtain ⟨name, properties, components⟩ := c
  refine ⟨h.uppercase, h.newline, h.properties, fun e he => ?_⟩
  obtain he | he := List.mem_append.1 he
  · exact h.components e he
  · rw [List.mem_singleton.1 he]
    exact hd

theorem filled_new {name : Text} (h : '\n' ∉ name) : Filled good inner (Component.new name) :=
  ⟨upper_upper name, fun hmem => h ((mem_upper_iff (by decide) _).1 hmem), fun _ h => absurd h List.not_mem_nil,
    fun _ h => absurd h List.not_mem_nil⟩

/-- A component that ends has the name its last line says, with nothing around it. -/
theorem Filled.closed {n : Nat} {value : Text} (h : Filled good (Fits good n) c)
    (hname : upper c.name = upper (trim value)) :
    Fits good (n + 1) c := by
  refine ⟨?_, h⟩
  rw [← h.uppercase, hname, trim_upper, trim_trim]

theorem value_of_parse (h : parseLine line = some p) : ∀ x ∈ p.value, x ∈ line := by
  obtain ⟨head, name, rfl, -⟩ := parseLine_eq_some.1 h
  exact fun x hx => List.mem_append_right _ (List.mem_cons_of_mem _ hx)

theorem Sane.addLine (h : Sane s count) (hline : '\n' ∉ line) (hadd : addLine s line = some s') :
    Sane s' (count + 1) := by
  obtain ⟨p, hp, hadd⟩ := Option.bind_eq_some_iff.1 hadd
  have hvalue : '\n' ∉ p.value := fun hmem => hline (value_of_parse hp _ hmem)
  have hcount := h.count
  obtain ⟨-, hroot, hlen, rfl⟩ | ⟨-, done, stack, hstack, hname, hend⟩ | ⟨hordinary, top, stack,
      hstack, rfl⟩ :=
    addProperty_cases hadd
  · refine ⟨⟨⟨hlen, filled_new hvalue⟩, h.stacked⟩, fun c hc => (nomatch hc), ?_⟩
    rw [hroot] at hcount
    rw [List.map_cons, List.sum_cons, length_flat_new, hcount]
    simp only [Option.map_none, Option.getD_none]
    omega
  · have hnone : s.root = none := by
      rw [Option.eq_none_iff_forall_not_mem]
      intro c hc
      rw [(h.root c hc).1] at hstack
      cases hstack
    obtain ⟨⟨hlen, hfilled⟩, hrest⟩ : Stacked (done :: stack) := hstack ▸ h.stacked
    have hclosed := hfilled.closed hname
    have hpos := length_flat_pos done
    rw [hstack, hnone, List.map_cons, List.sum_cons, Option.map_none, Option.getD_none] at hcount
    obtain ⟨rfl, rfl⟩ | ⟨parent, rest, rfl, rfl⟩ := hend
    · refine ⟨trivial, fun c hc => ?_, ?_⟩
      · obtain rfl : done = c := Option.some.inj hc
        exact ⟨rfl, hclosed⟩
      · rw [List.map_nil, List.sum_nil] at hcount ⊢
        rw [hcount, Option.map_some, Option.getD_some]
        omega
    · obtain ⟨⟨hlen', hparent⟩, hrest⟩ := hrest
      rw [List.length_cons] at hlen hclosed
      rw [show maxDepth - 1 - (rest.length + 1) + 1 = maxDepth - 1 - rest.length by
        change 16 - 1 - (rest.length + 1) + 1 = 16 - 1 - rest.length
        change rest.length + 1 < 16 at hlen
        omega] at hclosed
      refine ⟨⟨⟨hlen', hparent.addComponent hclosed⟩, hrest⟩, fun c hc => ?_, ?_⟩
      · rw [hnone] at hc
        cases hc
      · have hpos' := length_flat_pos parent
        rw [List.map_cons, List.sum_cons] at hcount
        rw [List.map_cons, List.sum_cons, length_flat_addComponent, hnone, Option.map_none,
          Option.getD_none, hcount]
        omega
  · obtain ⟨⟨hlen, hfilled⟩, hrest⟩ : Stacked (top :: stack) := hstack ▸ h.stacked
    refine ⟨⟨⟨hlen, hfilled.addProperty ⟨hordinary, line, hline, hp⟩⟩, hrest⟩, fun c hc => ?_, ?_⟩
    · have hnil := (h.root c hc).1
      rw [hstack] at hnil
      cases hnil
    · have hpos := length_flat_pos top
      rw [hstack, List.map_cons, List.sum_cons] at hcount
      rw [List.map_cons, List.sum_cons, length_flat_addProperty, hcount]
      dsimp only
      omega

theorem Sane.addLines (h : Sane s count) (hlines : ∀ line ∈ lines, '\n' ∉ line)
    (hadd : lines.foldlM Itip.addLine s = some s') : Sane s' (count + lines.length) := by
  induction lines generalizing s count with
  | nil =>
    cases hadd
    exact h
  | cons line lines ih =>
    rw [List.foldlM_cons] at hadd
    obtain ⟨mid, hmid, hadd⟩ := Option.bind_eq_some_iff.1 hadd
    have := ih (h.addLine (hlines _ List.mem_cons_self) hmid) (fun line hline =>
      hlines line (List.mem_cons_of_mem _ hline))
      hadd
    rwa [List.length_cons, Nat.add_comm lines.length, ← Nat.add_assoc]

theorem mem_stripCr {raw : Text} {x : Char} (h : x ∈ stripCr raw) : x ∈ raw := by
  unfold stripCr at h
  split at h
  next => exact List.mem_of_mem_dropLast h
  next => exact h

/-- The content lines of a text: not too many, and each of them one line. -/
theorem unfold_ends {text : Text} (h : unfold text = some lines) :
    lines.length ≤ maxLines ∧ ∀ line ∈ lines, '\n' ∉ line := by
  have hall : ∀ (raws done : List Text), (∀ raw ∈ raws, '\n' ∉ raw) → done.length ≤ maxLines →
      (∀ line ∈ done, '\n' ∉ line) → raws.foldlM addRaw done = some lines →
      lines.length ≤ maxLines ∧ ∀ line ∈ lines, '\n' ∉ line := by
    intro raws
    induction raws with
    | nil =>
      intro done _ hlen hdone heq
      cases heq
      exact ⟨hlen, hdone⟩
    | cons raw raws ih =>
      intro done hraws hlen hdone heq
      rw [List.foldlM_cons] at heq
      obtain ⟨mid, hmid, heq⟩ := Option.bind_eq_some_iff.1 heq
      have hraw : '\n' ∉ stripCr raw := fun hmem => hraws _ List.mem_cons_self (mem_stripCr hmem)
      suffices mid.length ≤ maxLines ∧ ∀ line ∈ mid, '\n' ∉ line from
        ih mid (fun raw hraw => hraws raw (List.mem_cons_of_mem _ hraw)) this.1 this.2 heq
      unfold addRaw at hmid
      split at hmid
      next =>
        cases hmid
        exact ⟨hlen, hdone⟩
      next c rest hstrip =>
        rw [hstrip] at hraw
        split at hmid
        next =>
          split at hmid
          next last hlast =>
            cases hmid
            have hne : done ≠ [] := by
              rintro rfl
              cases hlast
            have hpos := List.length_pos_iff.2 hne
            refine ⟨?_, fun line hline => ?_⟩
            · rw [List.length_append, List.length_dropLast, List.length_singleton]
              omega
            · obtain hline | hline := List.mem_append.1 hline
              · exact hdone line (List.mem_of_mem_dropLast hline)
              · rw [List.mem_singleton.1 hline, List.mem_append, not_or]
                exact ⟨hdone last (List.mem_of_getLast? hlast), fun hmem => hraw (List.mem_cons_of_mem _ hmem)⟩
          next => cases hmid
        next =>
          split at hmid
          next => cases hmid
          next hroom =>
            cases hmid
            refine ⟨?_, fun line hline => ?_⟩
            · rw [List.length_append, List.length_singleton]
              omega
            · obtain hline | hline := List.mem_append.1 hline
              · exact hdone line hline
              · rw [List.mem_singleton.1 hline]
                exact hraw
  exact hall _ [] (fun _ => Lib.notMem_of_mem_splitOn) (Nat.zero_le _) (fun _ h => absurd h List.not_mem_nil) h

theorem parse_eq_some {text : Text} : parse text = some c ↔ ∃ lines, unfold text = some lines ∧
    lines.foldlM addLine ⟨[], none⟩ = some ⟨[], some c⟩ ∧ c.name = calendar := by
  unfold parse
  rw [Option.bind_eq_bind, Option.bind_eq_some_iff]
  refine exists_congr fun lines => and_congr_right fun _ => ?_
  rw [Option.bind_eq_bind, Option.bind_eq_some_iff]
  constructor
  · rintro ⟨⟨stack, root⟩, hlines, hroot⟩
    obtain ⟨hroot, hok⟩ := Option.filter_eq_some_iff.1 hroot
    rw [Bool.and_eq_true, List.isEmpty_iff, beq_iff_eq] at hok
    obtain ⟨rfl, hname⟩ := hok
    obtain rfl : root = some c := hroot
    exact ⟨hlines, hname⟩
  · rintro ⟨hlines, hname⟩
    exact ⟨_, hlines, Option.filter_eq_some_iff.2 ⟨rfl, by rw [hname]; rfl⟩⟩

/-- **What is read** is a calendar, not too deep and not too long, all of whose properties come from
content lines. -/
theorem read_of_parse {text : Text} (h : parse text = some c) :
    Fits Read maxDepth c ∧ c.flat.length ≤ maxLines ∧ c.name = calendar := by
  obtain ⟨lines, hlines, hread, hname⟩ := parse_eq_some.1 h
  obtain ⟨hlen, hnewline⟩ := unfold_ends hlines
  have hstart : Sane ⟨[], none⟩ 0 := ⟨trivial, fun _ h => (nomatch h), rfl⟩
  have hsane := hstart.addLines hnewline hread
  have hcount := hsane.count
  rw [List.map_nil, List.sum_nil, Option.map_some, Option.getD_some] at hcount
  exact ⟨(hsane.root c rfl).2, by omega, hname⟩

end

/-! ## 7. Reading what was written -/

theorem mem_unquote {value : Text} {x : Char} (h : x ∈ unquote value) : x ∈ value := by
  obtain heq | ⟨-, heq⟩ := unquote_cases value
  · rwa [heq] at h
  · rw [heq]
    exact List.mem_cons_of_mem _ (List.mem_append_left _ h)

theorem mem_writeValue {value : Text} {x : Char} (h : x ∈ writeValue value) : x ∈ value ∨ x = '"' := by
  obtain ⟨hwrite, -⟩ | ⟨-, -, hwrite⟩ := writeValue_cases value
  · exact .inl (hwrite ▸ h)
  · rw [hwrite, List.mem_cons, List.mem_append, List.mem_filter, List.mem_singleton] at h
    tauto

theorem params_newline {rest : Text} {params : List (Text × Text)} (h : Params rest params)
    (hrest : '\n' ∉ rest) :
    ∀ param ∈ params, '\n' ∉ param.1 ∧ '\n' ∉ param.2 := by
  have hkeys {key : Text} (hkey : '\n' ∉ key) : '\n' ∉ upper (trim key) := fun hmem =>
    hkey (mem_of_mem_trim ((mem_upper_iff (by decide) _).1 hmem))
  induction h with
  | nil => exact fun _ h => absurd h List.not_mem_nil
  | last _ _ =>
    rw [List.mem_append, List.mem_cons, not_or, not_or] at hrest
    intro param hmem
    rw [List.mem_singleton.1 hmem]
    exact ⟨hkeys hrest.1, fun hmem => hrest.2.2 (mem_unquote hmem)⟩
  | more _ _ _ _ ih =>
    rw [List.mem_append, List.mem_cons, List.mem_append, List.mem_cons, not_or, not_or, not_or,
      not_or] at hrest
    obtain ⟨hkey, -, hvalue, -, hrest⟩ := hrest
    intro param hmem
    obtain rfl | hmem := List.mem_cons.1 hmem
    · exact ⟨hkeys hkey, fun hmem => hvalue (mem_unquote hmem)⟩
    · exact ih hrest param hmem

/-- A property that was read is written as one line. -/
theorem isLine_of_read (h : Read p) : IsLine p.line := by
  obtain ⟨line, hline, hparse⟩ := h.line
  have hname := isNamed_of_parse hparse
  obtain ⟨head, name, rfl, -, -, hhead, -, -⟩ := parseLine_eq_some.1 hparse
  rw [List.mem_append, List.mem_cons, not_or, not_or] at hline
  have hparams : ∀ param ∈ p.params, '\n' ∉ param.1 ∧ '\n' ∉ param.2 := by
    generalize p.params = params at hhead
    cases hhead with
    | bare => exact fun _ h => absurd h List.not_mem_nil
    | full _ _ hparams =>
      refine params_newline hparams fun hmem => hline.1 ?_
      exact List.mem_append_right _ (List.mem_cons_of_mem _ hmem)
  obtain ⟨c, rest, hcons⟩ := List.exists_cons_of_ne_nil hname.ne_nil
  have hhead : p.line.head? = some c := by
    rw [Property.line, hcons]
    rfl
  have hc : isNameChar c = true := hname.isNameChar (hcons ▸ List.mem_cons_self)
  refine ⟨fun hnil => ?_, ?_, ?_, ?_⟩
  · rw [hnil] at hhead
    cases hhead
  · rw [Property.line, List.mem_append, List.mem_append, List.mem_cons, not_or, not_or, not_or]
    refine ⟨⟨hname.notMem rfl, fun hmem => ?_⟩, by decide, hline.2.2⟩
    obtain ⟨param, hparam, hmem⟩ := List.mem_flatMap.1 hmem
    obtain ⟨hkey, hvalue⟩ := hparams param hparam
    have hwritten : '\n' ∉ writeValue param.2 := fun hmem => by
      obtain hmem | hmem := mem_writeValue hmem
      · exact hvalue hmem
      · exact absurd hmem (by decide)
    simp [hkey, hwritten] at hmem
  · rw [hhead]
    rintro ⟨⟩
    exact absurd hc (by decide)
  · rw [hhead]
    rintro ⟨⟩
    exact absurd hc (by decide)

theorem Marker.isLine (h : Marker p) : IsLine p.line := by
  cases h with
  | opens hnewline =>
    refine ⟨fun h => ?_, ?_, fun h => ?_, fun h => ?_⟩
    · cases h
    · simp [Property.line, «begin», hnewline]
    · cases h
    · cases h
  | closes hnewline =>
    refine ⟨fun h => ?_, ?_, fun h => ?_, fun h => ?_⟩
    · cases h
    · simp [Property.line, «end», hnewline]
    · cases h
    · cases h

theorem parseLine_marker (h : Marker p) : parseLine p.line = some p := by
  have hplain {name value : Text} (hname : IsNamed name) : parseLine (Property.line ⟨name, [], value⟩) =
      some ⟨name, [], value⟩ := by
    rw [line_bare rfl, parseLine_bare (clear_of_notMem (hname.notMem rfl)) (after_plain hname.quote_notMem)
      (clear_of_notMem (hname.notMem rfl)), if_pos hname.isName, hname.trimmed, hname.uppercase]
  cases h with
  | opens => exact hplain ⟨by decide, by decide, by decide⟩
  | closes => exact hplain ⟨by decide, by decide, by decide⟩

section
variable {c : Component} {n : Nat}

/-- The physical lines of what is written, and the content lines they are. -/
theorem toIcs_lines (hfits : Fits Read n c) (hlen : c.flat.length ≤ maxLines) :
    unfold c.toIcs = some (c.flat.map Property.line) ∧
      ∀ raw ∈ c.toIcs.splitOn '\n', octets (stripCr raw) ≤ foldAt := by
  rw [Component.toIcs, write_eq hfits]
  refine unfold_lines (fun line hline => ?_) (by rw [List.length_map]; exact hlen)
  obtain ⟨p, hp, rfl⟩ := List.mem_map.1 hline
  obtain hread | hmarker := mem_flat hfits hp
  · exact isLine_of_read hread
  · exact hmarker.isLine

/-- What a property is after it was written and read, if it can be read. -/
def reread (p : Property) : Property := (parseLine p.line).getD p

theorem name_reread (h : Read p) : (reread p).name = p.name := by
  obtain ⟨line, -, hline⟩ := h.line
  have hname := isNamed_of_parse hline
  unfold reread
  cases hread : parseLine p.line with
  | none => rfl
  | some q =>
    rw [Option.getD_some]
    by_cases hnil : p.params = []
    · rw [line_bare hnil] at hread
      exact name_of_parse hname (.inl rfl) hread
    · rw [line_full hnil, List.append_assoc, List.cons_append] at hread
      exact name_of_parse hname (.inr rfl) hread

theorem foldlM_addLine {properties : List Property} {s s' : Reading}
    (h : (properties.map Property.line).foldlM addLine s = some s') :
    (∀ p ∈ properties, parseLine p.line = some (reread p)) ∧
      (properties.map reread).foldlM addProperty s = some s' := by
  induction properties generalizing s with
  | nil => exact ⟨fun _ h => absurd h List.not_mem_nil, h⟩
  | cons p properties ih =>
    rw [List.map_cons, List.foldlM_cons] at h
    obtain ⟨mid, hmid, h⟩ := Option.bind_eq_some_iff.1 h
    obtain ⟨q, hq, hmid⟩ := Option.bind_eq_some_iff.1 hmid
    have hreread : reread p = q := by rw [reread, hq, Option.getD_some]
    obtain ⟨hall, hrest⟩ := ih h
    refine ⟨fun p' hp' => ?_, ?_⟩
    · obtain rfl | hp' := List.mem_cons.1 hp'
      · rw [hreread, hq]
      · exact hall p' hp'
    · rw [List.map_cons, List.foldlM_cons, hreread, hmid]
      exact hrest

/-- **Reading back a calendar** comes down to its properties, one by one. -/
theorem parse_toIcs (hfits : Fits Read maxDepth c) (hlen : c.flat.length ≤ maxLines)
    (hname : c.name = calendar) :
    parse c.toIcs = some c ↔ ∀ p ∈ c.flat, parseLine p.line = some p := by
  have hordinary {d : Component} (hd : Fits Ordinary maxDepth d) :
      d.flat.foldlM addProperty ⟨[], none⟩ = some ⟨[], some d⟩ :=
    foldlM_flat hd (by rw [List.length_nil, Nat.zero_add])
  rw [parse_eq_some]
  constructor
  · rintro ⟨lines, hlines, hread, -⟩
    rw [(toIcs_lines hfits hlen).1] at hlines
    cases hlines
    obtain ⟨hall, hread⟩ := foldlM_addLine hread
    have hmarker (p : Property) (hp : Marker p) : reread p = p :=
      by rw [reread, parseLine_marker hp, Option.getD_some]
    -- a property keeps its name, so that the tree keeps its shape
    have hsame : Fits Ordinary maxDepth (c.map reread) := hfits.map fun p hp => by
      unfold Ordinary
      rw [name_reread hp]
      exact hp.ordinary
    rw [← flat_map hmarker hfits, hordinary hsame, Option.some.injEq, Reading.mk.injEq,
      Option.some.injEq] at hread
    have hflat := flat_map hmarker hfits
    rw [hread.2] at hflat
    intro p hp
    rw [hall p hp, List.map_eq_map_iff.1 (hflat.symm.trans (List.map_id _).symm) p hp]
    rfl
  · intro hall
    refine ⟨_, (toIcs_lines hfits hlen).1, ?_, hname⟩
    have hlines : ∀ (properties : List Property) (s : Reading), (∀ p ∈ properties, parseLine p.line = some p) →
        (properties.map Property.line).foldlM addLine s = properties.foldlM addProperty s := by
      intro properties
      induction properties with
      | nil => exact fun _ _ => rfl
      | cons p properties ih =>
        intro s h
        rw [List.map_cons, List.foldlM_cons, List.foldlM_cons, addLine, h p List.mem_cons_self,
          Option.bind_some]
        exact Option.bind_congr fun s' _ => ih s' fun p hp => h p (List.mem_cons_of_mem _ hp)
    rw [hlines _ _ hall]
    exact hordinary (hfits.imp fun p hp => hp.ordinary)

/-- **The round trip.**  A calendar that was read is written in lines that are its own, none of them
too long, and it is read back as it was if and only if none of its parameter values loses its
quotation marks and none of their colons its quotation. -/
theorem ics_round_trip {text : Text} (h : parse text = some c) :
    (parse c.toIcs = some c ∧ unfold c.toIcs = some (c.flat.map Property.line) ∧
      ∀ raw ∈ c.toIcs.splitOn '\n', octets (stripCr raw) ≤ foldAt) ↔ ∀ p ∈ c.flat, p.Kept := by
  obtain ⟨hfits, hlen, hname⟩ := read_of_parse h
  rw [and_iff_left (toIcs_lines hfits hlen), parse_toIcs hfits hlen hname]
  refine forall₂_congr fun p hp => ?_
  obtain hread | hmarker := mem_flat hfits hp
  · obtain ⟨line, -, hline⟩ := hread.line
    exact parseLine_line hline
  · refine iff_of_true (parseLine_marker hmarker) ?_
    cases hmarker <;> exact ⟨fun _ h => absurd h List.not_mem_nil, trivial⟩

end

def named : Text := "BEGIN:VCALENDAR\nATTENDEE;CN=\"Nyu, die Katze\":mailto:nyu@example.net\nEND:VCALENDAR".toList

/-- A name between quotation marks comes back as it was. -/
theorem ics_round_trip_named : ∃ c, parse named = some c ∧ parse c.toIcs = some c := by
  have hkept : (parse named).any (fun c => decide (∀ p ∈ c.flat, p.Kept)) = true := by decide +kernel
  obtain ⟨c, hparse, hkept⟩ := (Option.any_eq_true _ _).1 hkept
  exact ⟨c, hparse, ((ics_round_trip hparse).2 (of_decide_eq_true hkept)).1⟩

def halfQuoted : Text :=
  "BEGIN:VCALENDAR\nATTENDEE;CN=Nyu \"die Katze, lieb\":mailto:nyu@example.net\nEND:VCALENDAR".toList

/-- A name half of which is between quotation marks loses them. -/
theorem half_quoted_is_lost : ∃ c, parse halfQuoted = some c ∧ parse c.toIcs ≠ some c := by
  have hread : (parse halfQuoted).any (fun c => c.flat.any fun p => !decide (parseLine p.line = some p)) = true := by
    decide +kernel
  obtain ⟨c, hparse, hread⟩ := (Option.any_eq_true _ _).1 hread
  obtain ⟨p, hp, hread⟩ := List.any_eq_true.1 hread
  rw [Bool.not_eq_true', decide_eq_false_iff_not] at hread
  obtain ⟨hfits, hlen, hname⟩ := read_of_parse hparse
  exact ⟨c, hparse, fun h => hread ((parse_toIcs hfits hlen hname).1 h p hp)⟩

end UwuMail.Itip
