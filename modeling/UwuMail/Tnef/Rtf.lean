/-
# RTF bodies

`rtf.rs`, `convert_bounded`: HTML or text that Outlook wrapped in RTF, or real RTF, turned into text
and simple HTML. One pass over the bytes with a stack of its own: a control word, a brace or a byte
of text at a time.

The decoder of the code pages is not in this repository.  Here it is any function `decode` of a code
page's number and bytes.

* §5: what a turn of the loop does to the output, in terms of the few ways there are to write
  (`Keeps`).  Whatever these keep, the whole run keeps.
-/
import Mathlib
import UwuMail.Lib.Pieces
import UwuMail.Store.Ics
import UwuMail.Tnef.Reader

namespace UwuMail.Tnef.Rtf

open Store (isWhitespace)
open Itip (octets)

/-! ## 1. Groups -/

/-- What an RTF body is. -/
inductive Content where
  /-- HTML that Outlook wrapped in RTF (`\\fromhtml1`), as it was. -/
  | html (text : Text)
  /-- Plain text that Outlook wrapped in RTF (`\\fromtext`). -/
  | text (text : Text)
  /-- Real RTF: its text, and simple HTML. -/
  | rtf (text html : Text)

inductive Mode where
  | html
  | text
  | rtf
deriving DecidableEq

structure Format where
  bold : Bool
  italic : Bool
  underline : Bool
  strike : Bool
deriving DecidableEq

def Format.default : Format := ⟨false, false, false, false⟩

structure Group where
  /-- A destination whose text is not shown. -/
  skip : Bool
  htmltag : Bool
  htmlrtf : Bool
  fldinst : Bool
  /-- This group opened a link (`\\fldrslt` of a HYPERLINK). -/
  link : Bool
  uc : Nat
  format : Format

def Group.default : Group := ⟨false, false, false, false, false, 1, Format.default⟩

/-- Whether text in the current state is shown. -/
def Group.visible (mode : Mode) (g : Group) : Bool :=
  if g.skip || g.fldinst then false
  else match mode with
    | .html => g.htmltag || !g.htmlrtf
    | _ => true

/-- How deep RTF groups may nest; deeper ones are read as part of the group at this depth. -/
def maxDepth : Nat := 512
/-- Text of one field instruction (`HYPERLINK "…"`) kept at most. -/
def maxField : Nat := 4096
/-- The most a paragraph or line break adds: the break, closing format and link tags, and the
`<div>` around it. -/
def paragraphCost : Nat := 40
/-- Bytes of the code page that wait at most. -/
def maxPending : Nat := 4096

def skipped : List String :=
  ["fonttbl", "colortbl", "stylesheet", "info", "pict", "object", "header", "headerl", "headerr",
    "headerf", "footer",
    "footerl", "footerr", "footerf", "footnote", "listtable", "listoverridetable", "rsidtbl",
      "generator", "xmlnstbl",
    "themedata", "colorschememapping", "latentstyles", "datastore", "mmathPr", "pgdsctbl", "filetbl", "revtbl",
    "bkmkstart", "bkmkend", "mhtmltag", "fldtype", "datafield", "xe", "tc", "txe", "private"]

/-! ## 2. What is written -/

structure Out where
  mode : Mode
  max : Nat
  codePage : Nat
  /-- Bytes of the code page waiting to become text. -/
  pending : Bytes
  highSurrogate : Option UInt16
  /-- HTML (Html mode) or plain text (Text and Rtf modes). -/
  text : Text
  /-- Rtf mode: finished paragraphs, and the one being written. -/
  html : Text
  para : Text
  current : Format
  inLink : Bool
  field : Text
  full : Bool

/-- One character in HTML. -/
def escapeChar (c : Char) : Text :=
  if c = '&' then "&amp;".toList
  else if c = '<' then "&lt;".toList
  else if c = '>' then "&gt;".toList
  else if c = '"' then "&quot;".toList
  else if c = '\'' then "&#39;".toList
  else [c]

def escape (text : Text) : Text := text.flatMap escapeChar

/-- Bytes a character takes in HTML, as `escape` writes it. -/
def escapedLen (c : Char) : Nat :=
  if c = '"' then 6
  else if c = '&' ∨ c = '\'' then 5
  else if c = '<' ∨ c = '>' then 4
  else c.utf8Size

def openTags (f : Format) : Text :=
  (if f.bold then "<b>".toList else []) ++ (if f.italic then "<i>".toList else []) ++
    (if f.underline then "<u>".toList else []) ++ (if f.strike then "<s>".toList else [])

def closeTags (f : Format) : Text :=
  (if f.strike then "</s>".toList else []) ++ (if f.underline then "</u>".toList else []) ++
    (if f.italic then "</i>".toList else []) ++ (if f.bold then "</b>".toList else [])

/-- As many characters as fit into `room`, each with its cost. -/
def fitting (cost : Char → Nat) : Nat → Text → Text
  | _, [] => []
  | room, c :: text => if cost c ≤ room then c :: fitting cost (room - cost c) text else []

namespace Out

/-- Bytes written so far. -/
def used (o : Out) : Nat := octets o.text + octets o.html + octets o.para

/-- `fits`: what is done when `n` more bytes fit; when not, the output is full. -/
def whenFits (n : Nat) (o : Out) (write : Out → Out) : Out :=
  if o.full ∨ o.used + n > o.max then { o with full := true } else write o

def closeFormat (o : Out) : Out := { o with para := o.para ++ closeTags o.current, current := Format.default }

def setFormat (format : Format) (o : Out) : Out :=
  if format = o.current then o
  else
    let o := o.closeFormat
    { o with para := o.para ++ openTags format, current := format }

/-- The text goes into the HTML as well, escaped: what fits is counted by character. -/
def cost (mode : Mode) (c : Char) : Nat :=
  match mode with
  | .rtf => c.utf8Size + escapedLen c
  | _ => c.utf8Size

def write (text : Text) (format : Format) (o : Out) : Out :=
  if o.full then o
  else
    let fit := fitting (cost o.mode) (o.max - o.used) text
    let o := { o with full := o.full || fit.length < text.length, text := o.text ++ fit }
    if o.mode = .rtf then
      let o := o.setFormat format
      { o with para := o.para ++ escape fit }
    else o

def flush (decode : Nat → Bytes → Text) (format : Format) (o : Out) : Out :=
  if o.pending = [] then o
  else { o with pending := [] }.write (decode o.codePage o.pending) format

def byte (decode : Nat → Bytes → Text) (byte : UInt8) (format : Format) (o : Out) : Out :=
  let o := if o.pending.length ≥ maxPending then o.flush decode format else o
  { o with pending := o.pending ++ [byte] }

def writeRaw (text : Text) (o : Out) : Out := o.whenFits (octets text) fun o =>
    { o with text := o.text ++ text }

def paragraph (o : Out) : Out :=
  match o.mode with
  | .html => o.writeRaw "\r\n".toList
  | .text => o.writeRaw "\n".toList
  | .rtf => o.whenFits paragraphCost fun o =>
    let o := { o with text := o.text ++ ['\n'] }.closeFormat
    let para := if o.inLink then o.para ++ "</a>".toList else o.para
    let html :=
      if para = [] then o.html ++ "<div><br></div>\n".toList
      else o.html ++ "<div>".toList ++ para ++ "</div>\n".toList
    { o with html, para := [], inLink := false }

def line (o : Out) : Out :=
  match o.mode with
  | .rtf => o.whenFits paragraphCost fun o =>
    let o := { o with text := o.text ++ ['\n'] }.closeFormat
    { o with para := o.para ++ "<br>".toList }
  | _ => o.paragraph

def linkTag (url : Text) : Text := "<a href=\"".toList ++ escape url ++ "\">".toList

def startLink (url : Text) (o : Out) : Out :=
  if o.mode ≠ .rtf ∨ o.inLink then o
  else o.whenFits (octets (escape url) + paragraphCost) fun o =>
    let o := o.closeFormat
    { o with para := o.para ++ linkTag url, inLink := true }

def endLink (o : Out) : Out :=
  if o.inLink then
    let o := o.closeFormat
    { o with para := o.para ++ "</a>".toList, inLink := false }
  else o

def emitUnit (unit : UInt16) (format : Format) (o : Out) : Out :=
  if 0xd800 ≤ unit ∧ unit ≤ 0xdbff then
    let o' := { o with highSurrogate := some unit }
    if o.highSurrogate.isSome then o'.write ['\uFFFD'] format else o'
  else if 0xdc00 ≤ unit ∧ unit ≤ 0xdfff then
    { o with highSurrogate := none }.write
      (o.highSurrogate.elim ['\uFFFD'] fun high => fromUtf16Lossy [high, unit]) format
  else
    let o' := { o with highSurrogate := none }
    let o' := if o.highSurrogate.isSome then o'.write ['\uFFFD'] format else o'
    o'.write [Char.ofNat unit.toNat] format

end Out

/-! ## 3. Words -/

/-- An address that may be linked, in any case. -/
def isLinkable (url : Text) : Bool :=
  let lower := url.map Char.toLower
  "https://".toList.isPrefixOf lower || "http://".toList.isPrefixOf lower || "mailto:".toList.isPrefixOf lower

/-- The URL of a `HYPERLINK "…"` field instruction, when it is one that may be linked. -/
def hyperlink (instruction : Text) : Option Text :=
  let text := instruction.dropWhile isWhitespace
  if "HYPERLINK".toList.isPrefixOf text then
    let rest := (text.drop 9).dropWhile isWhitespace
    let url := match rest with
      | '"' :: quoted => some (quoted.takeWhile (· ≠ '"'))
      | _ => if rest = [] then none else some (rest.takeWhile fun c => !isWhitespace c)
    (url.map (Lib.trim isWhitespace)).filter isLinkable
  else none

inductive Token where
  | opening
  | closing
  /-- A control word and its number. -/
  | word (name : String) (param : Option Int)
  /-- `\'hh` -/
  | hex (byte : Option UInt8)
  /-- A backslash before something that is no letter. -/
  | symbol (c : UInt8)
  | blank
  | char (c : UInt8)

def isAlphabetic (c : UInt8) : Bool := (97 ≤ c && c ≤ 122) || (65 ≤ c && c ≤ 90)
def isDigit (c : UInt8) : Bool := 48 ≤ c && c ≤ 57

/-- As many as the predicate holds of, `n` at most, and the rest. -/
def spanAtMost (p : UInt8 → Bool) (n : Nat) (input : Bytes) : Bytes × Bytes :=
  let taken := (input.take n).takeWhile p
  (taken, input.drop taken.length)

def digitsValue (digits : Bytes) : Int := digits.foldl (fun value d => value * 10 + (d.toNat - 48 : Nat)) 0

/-- `clamp` to an `i32`. -/
def clamp32 (v : Int) : Int := max (-(2 ^ 31)) (min v (2 ^ 31 - 1))

/-- A control word, after the backslash: at most 32 letters, a number, a blank. -/
def lexWord (input : Bytes) : Token × Bytes :=
  let (letters, rest) := spanAtMost isAlphabetic 32 input
  let negative := rest.head? = some 45
  let rest := if negative then rest.tail else rest
  let (digits, rest) := spanAtMost isDigit 10 rest
  let value := digitsValue digits
  let param := if digits = [] then none else some (clamp32 (if negative then -value else value))
  let rest := if rest.head? = some 32 then rest.tail else rest
  (.word (String.ofList (letters.map fun c => Char.ofNat c.toNat)) param, rest)

def hexDigit (c : UInt8) : Option Nat :=
  if isDigit c then some (c.toNat - 48)
  else if 97 ≤ c ∧ c ≤ 102 then some (c.toNat - 87)
  else if 65 ≤ c ∧ c ≤ 70 then some (c.toNat - 55)
  else none

/-- `u8::from_str_radix` of two characters: the first may be a plus. -/
def hexByte (a b : UInt8) : Option UInt8 :=
  if a = 43 then (hexDigit b).map Nat.toUInt8
  else do
    let high ← hexDigit a
    let low ← hexDigit b
    some (16 * high + low).toUInt8

/-- The next token; `none` at the end, of which a backslash alone is one. -/
def lex : Bytes → Option (Token × Bytes)
  | [] => none
  | c :: input =>
    if c = 123 then some (.opening, input)
    else if c = 125 then some (.closing, input)
    else if c = 92 then
      match input with
      | [] => none
      | next :: rest =>
        if isAlphabetic next then some (lexWord (next :: rest))
        else if next = 39 then
          match rest with
          | a :: b :: after =>
            match hexByte a b with
            | some byte => some (.hex (some byte), after)
            | none => some (.hex none, rest)
          | _ => some (.hex none, rest)
        else some (.symbol next, rest)
    else if c = 13 ∨ c = 10 then some (.blank, input)
    else some (.char c, input)

/-! ## 4. The loop -/

structure Conv where
  out : Out
  stack : List Group
  group : Group
  /-- Groups deeper than `maxDepth` are counted, not kept. -/
  excess : Nat
  /-- Characters still to skip after `\uN`. -/
  skipChars : Nat
  star : Bool

namespace Conv

section
variable (decode : Nat → Bytes → Text)

def visible (s : Conv) : Bool := s.group.visible s.out.mode

def flush (s : Conv) : Conv := { s with out := s.out.flush decode s.group.format }

def textByte (byte : UInt8) (s : Conv) : Conv :=
  if s.group.fldinst ∧ ¬s.group.skip then
    if octets s.out.field < maxField then
      { s with out := { s.out with field := s.out.field ++ [Char.ofNat byte.toNat] } }
    else s
  else if s.visible then
    let out := { s.out with highSurrogate := none }
    let out := if s.out.highSurrogate.isSome then out.write ['\uFFFD'] s.group.format else out
    { s with out := out.byte decode byte s.group.format }
  else s

def emitChar (c : Char) (s : Conv) : Conv :=
  if s.visible then { s with out := (s.out.flush decode s.group.format).write [c] s.group.format } else s

/-- The words that stand for one character. -/
def charWord : String → Option Char
  | "tab" => some '\t'
  | "cell" => some '\t'
  | "emdash" => some '\u2014'
  | "endash" => some '\u2013'
  | "bullet" => some '\u2022'
  | "lquote" => some '\u2018'
  | "rquote" => some '\u2019'
  | "ldblquote" => some '\u201C'
  | "rdblquote" => some '\u201D'
  | _ => none

/-- The words that change the format. -/
def formatWord (on : Bool) (f : Format) : String → Option Format
  | "plain" => some Format.default
  | "b" => some { f with bold := on }
  | "i" => some { f with italic := on }
  | "ul" => some { f with underline := on }
  | "ulnone" => some { f with underline := false }
  | "strike" => some { f with strike := on }
  | _ => none

/-- The words that change the code page. -/
def codePageWord (param : Option Int) (codePage : Nat) : String → Option Nat
  | "ansicpg" => some (match param with | some p => if p > 0 then p.toNat else codePage | none => codePage)
  | "ansi" => some 1252
  | "mac" => some 10000
  | "pc" => some 437
  | "pca" => some 850
  | _ => none

/-- A control word that is not skipped and no destination. -/
def plainWord (name : String) (param : Option Int) (s : Conv) : Conv :=
  let on := param.all (· ≠ 0)
  match charWord name, formatWord on s.group.format name, codePageWord param s.out.codePage name with
  | some c, _, _ => s.emitChar decode c
  | none, some format, _ =>
    let s := s.flush decode
    { s with group := { s.group with format } }
  | none, none, some codePage => { s with out := { s.out with codePage } }
  | none, none, none =>
    match name with
    | "htmlrtf" =>
      let s := s.flush decode
      { s with group := { s.group with htmlrtf := on } }
    | "uc" => { s with group := { s.group with uc := (max 0 (min (param.getD 1) 10)).toNat } }
    | "u" =>
      match param with
      | none => s
      | some p =>
        let unit := UInt16.ofInt (if p < 0 then p + 65536 else p)
        let s := if s.visible then { s with out :=
          (s.out.flush decode s.group.format).emitUnit unit s.group.format } else s
        { s with skipChars := s.group.uc }
    | "par" | "sect" | "page" | "row" =>
      if s.visible then { s with out := (s.out.flush decode s.group.format).paragraph } else s
    | "line" => if s.visible then { s with out := (s.out.flush decode s.group.format).line } else s
    | _ => s

def word (name : String) (param : Option Int) (s : Conv) : Conv :=
  let wasStar := s.star
  let s := { s with star := false }
  -- a control word counts as one of the characters `\uN` skips
  if s.skipChars > 0 ∧ name ≠ "bin" then { s with skipChars := s.skipChars - 1 }
  else
    let s := { s with skipChars := s.skipChars - 1 }
    match name with
    | "htmltag" => { s with group := { s.group with htmltag := true } }
    | "fldinst" =>
      let s := s.flush decode
      { s with group := { s.group with fldinst := true }, out := { s.out with field := [] } }
    | "fldrslt" =>
      let s := match hyperlink s.out.field with
        | some url =>
          let s := s.flush decode
          { s with out := s.out.startLink url, group := { s.group with link := true } }
        | none => s
      { s with out := { s.out with field := [] } }
    | _ =>
      if skipped.contains name ∨ wasStar then { s with group := { s.group with skip := true } }
      else s.plainWord decode name param

/-- What comes after the token is not read: the bytes of `\binN`. -/
def binary (s : Conv) : Token → Nat
  | .word "bin" param => if s.star then 0 else (max 0 (param.getD 0)).toNat
  | _ => 0

/-- A character that `\uN` may have told to skip. -/
def unlessSkipped (s : Conv) (act : Conv → Conv) : Conv :=
  if s.skipChars > 0 then { s with skipChars := s.skipChars - 1 } else act s

def symbol (c : UInt8) (s : Conv) : Conv :=
  if c = 42 then { s with star := true }
  else if c = 92 ∨ c = 123 ∨ c = 125 then s.unlessSkipped (textByte decode c)
  else if c = 126 then s.emitChar decode '\u00A0'
  else if c = 95 then s.emitChar decode '\u2011'
  else if (c = 13 ∨ c = 10) ∧ s.visible then { s with out := (s.out.flush decode s.group.format).paragraph }
  else s

def opening (s : Conv) : Conv :=
  let s := { s.flush decode with star := false }
  if s.stack.length ≥ maxDepth then { s with excess := s.excess + 1 }
  else { s with stack := s.group :: s.stack, group := { s.group with link := false } }

def closing (s : Conv) : Conv :=
  let s := if ¬s.group.fldinst then s.flush decode else { s with out := { s.out with pending := [] } }
  let s := { s with star := false }
  if s.excess > 0 then { s with excess := s.excess - 1 }
  else match s.stack with
    | [] => s
    | parent :: stack =>
      let out := if s.group.link ∧ ¬parent.link then s.out.endLink else s.out
      { s with out, stack, group := parent }

/-- One turn of the loop. -/
def act (s : Conv) : Token → Conv
  | .opening => s.opening decode
  | .closing => s.closing decode
  | .word name param => s.word decode name param
  | .hex byte => s.unlessSkipped fun s => byte.elim s fun byte => s.textByte decode byte
  | .symbol c => s.symbol decode c
  | .blank => s
  | .char c => s.unlessSkipped (textByte decode c)

end

end Conv

theorem length_spanAtMost {p : UInt8 → Bool} {n : Nat} {input : Bytes} :
    (spanAtMost p n input).2.length ≤ input.length := by
  unfold spanAtMost
  rw [List.length_drop]
  exact Nat.sub_le _ _

theorem length_lexWord (input : Bytes) : (lexWord input).2.length ≤ input.length := by
  have htail : ∀ (data : Bytes) (c : Prop) [Decidable c],
      (if c then data.tail else data).length ≤ data.length := by
    intro data c _
    split
    · rw [List.length_tail]
      exact Nat.sub_le _ _
    · exact Nat.le_refl _
  unfold lexWord
  refine (htail _ _).trans (length_spanAtMost.trans ((htail _ _).trans length_spanAtMost))

/-- Each token takes a byte at least. -/
theorem length_lex {input rest : Bytes} {token : Token} (h : lex input = some (token, rest)) :
    rest.length < input.length := by
  unfold lex at h
  split at h
  · cases h
  · next c input =>
    split_ifs at h with hopen hclose hslash hblank
    · cases h
      exact Nat.lt_succ_self _
    · cases h
      exact Nat.lt_succ_self _
    · split at h
      · cases h
      · next next rest =>
        split_ifs at h with halpha hquote
        · have heq := congrArg Prod.snd (Option.some.inj h)
          have := length_lexWord (next :: rest)
          rw [heq] at this
          exact Nat.lt_succ_of_le this
        · split at h
          · split at h
            · cases h
              simp only [List.length_cons]
              omega
            · cases h
              simp only [List.length_cons]
              omega
          · cases h
            simp only [List.length_cons]
            omega
        · cases h
          simp only [List.length_cons]
          omega
    · cases h
      exact Nat.lt_succ_self _
    · cases h
      exact Nat.lt_succ_self _

/-- The loop of `convert_bounded`. -/
def run (decode : Nat → Bytes → Text) (s : Conv) (input : Bytes) : Conv :=
  if s.out.full then s
  else match _h : lex input with
    | none => s
    | some (token, rest) => run decode (s.act decode token) (rest.drop (s.binary token))
termination_by input.length
decreasing_by
  have := length_lex ‹_›
  rw [List.length_drop]
  omega

/-- Whether the needle is within the first 4096 bytes. -/
def has (needle : String) (rtf : Bytes) : Bool := (rtf.take 4096).tails.any ((ascii needle).isPrefixOf ·)

def modeOf (rtf : Bytes) : Mode :=
  if has "\\fromhtml" rtf then .html else if has "\\fromtext" rtf then .text else .rtf

def start (mode : Mode) (max : Nat) : Conv where
  out := ⟨mode, max, 1252, [], none, [], [], [], Format.default, false, [], false⟩
  stack := []
  group := Group.default
  excess := 0
  skipChars := 0
  star := false

/-- What is made of the output at the end. -/
def finish (o : Out) : Content :=
  match o.mode with
  | .html => .html o.text
  | .text => .text o.text
  | .rtf =>
    let o := o.endLink
    let html :=
      if o.para = [] then o.html
      else o.html ++ "<div>".toList ++ o.closeFormat.para ++ "</div>\n".toList
    .rtf (o.text.rdropWhile isWhitespace) html

/-- `convert`, and whether all of the document fit into `max`. -/
def convertBounded (decode : Nat → Bytes → Text) (rtf : Bytes) (max : Nat) : Content × Bool :=
  let s := (run decode (start (modeOf rtf) max) rtf).flush decode
  (finish s.out, !s.out.full)

/-! ## 5. What a turn does to the output -/

/-- What can be written: something, or what the decoder makes of bytes that wait. -/
def Written (decode : Nat → Bytes → Text) (text : Text) : Prop :=
  text ≠ [] ∨ ∃ codePage bytes, bytes ≠ [] ∧ bytes.length ≤ maxPending ∧ 0 < codePage ∧ codePage < 2 ^ 31 ∧
    text = decode codePage bytes

/-- What is the same all along, and how much waits. -/
structure Base (mode : Mode) (limit : Nat) (o : Out) : Prop where
  mode_eq : o.mode = mode
  max_eq : o.max = limit
  pending_le : o.pending.length ≤ maxPending
  code_pos : 0 < o.codePage
  code_lt : o.codePage < 2 ^ 31

/-- A property of the output that every way to write keeps. -/
structure Keeps (decode : Nat → Bytes → Text) (P : Out → Prop) : Prop where
  /-- It does not look at what waits. -/
  same : ∀ {o : Out} (codePage : Nat) (pending : Bytes) (highSurrogate : Option UInt16) (field : Text), P o →
    P { o with codePage, pending, highSurrogate, field }
  write : ∀ {o : Out} {text : Text} (format : Format), Written decode text → P o → P (o.write text format)
  paragraph : ∀ {o : Out}, P o → P o.paragraph
  line : ∀ {o : Out}, P o → P o.line
  startLink : ∀ {o : Out} {url : Text}, isLinkable url = true → P o → P (o.startLink url)
  endLink : ∀ {o : Out}, P o → P o.endLink

section
variable {decode : Nat → Bytes → Text} {mode : Mode} {limit : Nat} {o : Out} {s : Conv}

section
variable (o)

theorem base_congr {o' : Out} (hmode : o'.mode = o.mode) (hmax : o'.max = o.max)
    (hpending : o'.pending = o.pending)
    (hcode : o'.codePage = o.codePage) (h : Base mode limit o) : Base mode limit o' :=
  ⟨hmode.trans h.mode_eq, hmax.trans h.max_eq, hpending ▸ h.pending_le, hcode ▸ h.code_pos, hcode ▸ h.code_lt⟩

/-- Nothing of this is changed by what is written. -/
theorem setFormat_same (format : Format) : (o.setFormat format).mode = o.mode ∧
    (o.setFormat format).max = o.max ∧
    (o.setFormat format).pending = o.pending ∧ (o.setFormat format).codePage = o.codePage := by
  unfold Out.setFormat
  split <;> exact ⟨rfl, rfl, rfl, rfl⟩

theorem write_same (text : Text) (format : Format) : (o.write text format).mode = o.mode ∧
    (o.write text format).max = o.max ∧ (o.write text format).pending = o.pending ∧
    (o.write text format).codePage = o.codePage := by
  unfold Out.write
  split
  · exact ⟨rfl, rfl, rfl, rfl⟩
  · dsimp only
    split
    · exact setFormat_same _ format
    · exact ⟨rfl, rfl, rfl, rfl⟩

theorem whenFits_same {n : Nat} {f : Out → Out}
    (hf : (f o).mode = o.mode ∧ (f o).max = o.max ∧ (f o).pending = o.pending ∧ (f o).codePage = o.codePage) :
    (o.whenFits n f).mode = o.mode ∧ (o.whenFits n f).max = o.max ∧ (o.whenFits n f).pending = o.pending ∧
      (o.whenFits n f).codePage = o.codePage := by
  unfold Out.whenFits
  split
  · exact ⟨rfl, rfl, rfl, rfl⟩
  · exact hf

theorem paragraph_same : o.paragraph.mode = o.mode ∧ o.paragraph.max = o.max ∧
    o.paragraph.pending = o.pending ∧
    o.paragraph.codePage = o.codePage := by
  unfold Out.paragraph
  split <;> exact whenFits_same o ⟨rfl, rfl, rfl, rfl⟩

theorem line_same : o.line.mode = o.mode ∧ o.line.max = o.max ∧ o.line.pending = o.pending ∧
    o.line.codePage = o.codePage := by
  unfold Out.line
  split
  · exact whenFits_same o ⟨rfl, rfl, rfl, rfl⟩
  · exact paragraph_same o

theorem startLink_same (url : Text) : (o.startLink url).mode = o.mode ∧ (o.startLink url).max = o.max ∧
    (o.startLink url).pending = o.pending ∧ (o.startLink url).codePage = o.codePage := by
  unfold Out.startLink
  split
  · exact ⟨rfl, rfl, rfl, rfl⟩
  · exact whenFits_same o ⟨rfl, rfl, rfl, rfl⟩

theorem endLink_same : o.endLink.mode = o.mode ∧ o.endLink.max = o.max ∧ o.endLink.pending = o.pending ∧
    o.endLink.codePage = o.codePage := by
  unfold Out.endLink
  split <;> exact ⟨rfl, rfl, rfl, rfl⟩

end

variable {format : Format}

theorem flush_pending : (o.flush decode format).pending = [] := by
  unfold Out.flush
  split
  · assumption
  · exact (write_same _ _ _).2.2.1

theorem hyperlink_linkable {field url : Text} (h : hyperlink field = some url) : isLinkable url = true := by
  unfold hyperlink at h
  obtain ⟨-, h⟩ := Option.ite_none_right_eq_some.1 h
  exact (Option.filter_eq_some_iff.1 h).2

theorem clamped {c : Prop} [Decidable c] {value p : Int} (h : p ∈ if c then none else some (clamp32 value)) :
    p < 2 ^ 31 := by
  split at h
  · cases h
  · obtain rfl := Option.some.inj h
    unfold clamp32
    omega

/-- A number fits into 32 bits. -/
theorem lex_param {input rest : Bytes} {name : String} {param : Option Int} (h : lex input =
    some (.word name param, rest)) :
    ∀ p ∈ param, p < 2 ^ 31 := by
  unfold lex at h
  split at h
  · cases h
  · split_ifs at h
    · cases h
    · cases h
    · split at h
      · cases h
      · split_ifs at h
        · unfold lexWord at h
          cases h
          exact fun p hp => clamped hp
        · split at h
          · split at h <;> cases h
          · cases h
        · cases h
    · cases h
    · cases h

/-- Both at once, so that a turn is gone through once. -/
def Holds (P : Out → Prop) (mode : Mode) (limit : Nat) (o : Out) : Prop := Base mode limit o ∧ P o

variable {P : Out → Prop}

theorem holds_unlessSkipped {act : Conv → Conv} (hact : Holds P mode limit (act s).out)
    (h : Holds P mode limit s.out) :
    Holds P mode limit (s.unlessSkipped act).out := by
  unfold Conv.unlessSkipped
  split
  · exact h
  · exact hact

variable (hkeeps : Keeps decode P)

include hkeeps

theorem holds_write {text : Text} (htext : Written decode text) (h : Holds P mode limit o) :
    Holds P mode limit (o.write text format) :=
  have ⟨hmode, hmax, hpending, hcode⟩ := write_same o text format
  ⟨base_congr o hmode hmax hpending hcode h.1, hkeeps.write format htext h.2⟩

theorem holds_paragraph (h : Holds P mode limit o) : Holds P mode limit o.paragraph :=
  have ⟨hmode, hmax, hpending, hcode⟩ := paragraph_same o
  ⟨base_congr o hmode hmax hpending hcode h.1, hkeeps.paragraph h.2⟩

theorem holds_line (h : Holds P mode limit o) : Holds P mode limit o.line :=
  have ⟨hmode, hmax, hpending, hcode⟩ := line_same o
  ⟨base_congr o hmode hmax hpending hcode h.1, hkeeps.line h.2⟩

theorem holds_startLink {url : Text} (hurl : isLinkable url = true) (h : Holds P mode limit o) :
    Holds P mode limit (o.startLink url) :=
  have ⟨hmode, hmax, hpending, hcode⟩ := startLink_same o url
  ⟨base_congr o hmode hmax hpending hcode h.1, hkeeps.startLink hurl h.2⟩

theorem holds_endLink (h : Holds P mode limit o) : Holds P mode limit o.endLink :=
  have ⟨hmode, hmax, hpending, hcode⟩ := endLink_same o
  ⟨base_congr o hmode hmax hpending hcode h.1, hkeeps.endLink h.2⟩

theorem holds_field (field : Text) (h : Holds P mode limit o) : Holds P mode limit { o with field } :=
  ⟨base_congr o rfl rfl rfl rfl h.1, hkeeps.same o.codePage o.pending o.highSurrogate field h.2⟩

theorem holds_surrogate (highSurrogate : Option UInt16) (h : Holds P mode limit o) :
    Holds P mode limit { o with highSurrogate } :=
  ⟨base_congr o rfl rfl rfl rfl h.1, hkeeps.same o.codePage o.pending highSurrogate o.field h.2⟩

theorem holds_pending {pending : Bytes} (hpending : pending.length ≤ maxPending) (h : Holds P mode limit o) :
    Holds P mode limit { o with pending } :=
  ⟨⟨h.1.mode_eq, h.1.max_eq, hpending, h.1.code_pos, h.1.code_lt⟩,
    hkeeps.same o.codePage pending o.highSurrogate o.field h.2⟩

theorem holds_codePage {codePage : Nat} (hpos : 0 < codePage) (hlt : codePage < 2 ^ 31)
    (h : Holds P mode limit o) :
    Holds P mode limit { o with codePage } :=
  ⟨⟨h.1.mode_eq, h.1.max_eq, h.1.pending_le, hpos, hlt⟩,
    hkeeps.same codePage o.pending o.highSurrogate o.field h.2⟩

theorem holds_flush (h : Holds P mode limit o) : Holds P mode limit (o.flush decode format) := by
  unfold Out.flush
  split
  · exact h
  · next hne =>
    refine holds_write hkeeps (.inr ⟨_, _, hne, h.1.pending_le, h.1.code_pos, h.1.code_lt, rfl⟩) ?_
    exact holds_pending hkeeps (Nat.zero_le _) h

theorem holds_byte {byte : UInt8} (h : Holds P mode limit o) :
    Holds P mode limit (o.byte decode byte format) := by
  unfold Out.byte
  split
  · refine holds_pending hkeeps ?_ (holds_flush hkeeps h)
    rw [flush_pending]
    exact Nat.succ_le_of_lt (by decide)
  · next hlt =>
    refine holds_pending hkeeps ?_ h
    rw [List.length_append]
    exact Nat.lt_of_not_le hlt

theorem holds_emitUnit {unit : UInt16} (h : Holds P mode limit o) :
    Holds P mode limit (o.emitUnit unit format) := by
  have hone : ∀ c : Char, Written decode [c] := fun c => Or.inl (List.cons_ne_nil _ _)
  unfold Out.emitUnit
  dsimp only
  split_ifs with hhigh hsome hlow hsome
  · exact holds_write hkeeps (hone _) (holds_surrogate hkeeps _ h)
  · exact holds_surrogate hkeeps _ h
  · refine holds_write hkeeps (.inl ?_) (holds_surrogate hkeeps _ h)
    cases o.highSurrogate with
    | none => exact List.cons_ne_nil _ _
    | some high =>
      change fromUtf16Lossy [high, unit] ≠ []
      rw [fromUtf16Lossy.eq_def]
      dsimp only
      split_ifs
      · exact List.cons_ne_nil _ _
      · exact List.cons_ne_nil _ _
      · exact List.cons_ne_nil _ _
      · exact List.cons_ne_nil _ _
  · exact holds_write hkeeps (hone _) (holds_write hkeeps (hone _) (holds_surrogate hkeeps _ h))
  · exact holds_write hkeeps (hone _) (holds_surrogate hkeeps _ h)

theorem holds_textByte {byte : UInt8} (h : Holds P mode limit s.out) :
    Holds P mode limit (s.textByte decode byte).out := by
  unfold Conv.textByte
  split_ifs with hfield hroom hvisible hsome
  · exact holds_field hkeeps _ h
  · exact h
  · exact holds_byte hkeeps (holds_write hkeeps (.inl (List.cons_ne_nil _ _)) (holds_surrogate hkeeps _ h))
  · exact holds_byte hkeeps (holds_surrogate hkeeps _ h)
  · exact h

theorem holds_emitChar {c : Char} (h : Holds P mode limit s.out) :
    Holds P mode limit (s.emitChar decode c).out := by
  unfold Conv.emitChar
  split
  · exact holds_write hkeeps (.inl (List.cons_ne_nil _ _)) (holds_flush hkeeps h)
  · exact h

theorem holds_plainWord {name : String} {param : Option Int} (hparam : ∀ p ∈ param, p < 2 ^ 31)
    (h : Holds P mode limit s.out) : Holds P mode limit (s.plainWord decode name param).out := by
  have hflush : Holds P mode limit (s.out.flush decode s.group.format) := holds_flush hkeeps h
  unfold Conv.plainWord
  dsimp only
  split
  · exact holds_emitChar hkeeps h
  · exact hflush
  · next codePage _ _ hcode =>
    obtain ⟨hpos, hlt⟩ : 0 < codePage ∧ codePage < 2 ^ 31 := by
      unfold Conv.codePageWord at hcode
      split at hcode
      · cases hcode
        split
        · next p hp =>
          have := hparam p rfl
          split
          · omega
          · exact ⟨h.1.code_pos, h.1.code_lt⟩
        · exact ⟨h.1.code_pos, h.1.code_lt⟩
      · cases hcode
        decide
      · cases hcode
        decide
      · cases hcode
        decide
      · cases hcode
        decide
      · cases hcode
    exact holds_codePage hkeeps hpos hlt h
  · split
    · exact hflush
    · exact h
    · split
      · exact h
      · dsimp only
        split
        · exact holds_emitUnit hkeeps hflush
        · exact h
    all_goals first
      | exact h
      | split
        · first | exact holds_paragraph hkeeps hflush | exact holds_line hkeeps hflush
        · exact h

theorem holds_word {name : String} {param : Option Int} (hparam : ∀ p ∈ param, p < 2 ^ 31)
    (h : Holds P mode limit s.out) : Holds P mode limit (s.word decode name param).out := by
  have hflush : Holds P mode limit (s.out.flush decode s.group.format) := holds_flush hkeeps h
  unfold Conv.word
  dsimp only
  split
  · exact h
  · split
    · exact h
    · exact holds_field hkeeps _ hflush
    · refine holds_field hkeeps _ ?_
      split
      · next url hurl => exact holds_startLink hkeeps (hyperlink_linkable hurl) hflush
      · exact h
    · split
      · exact h
      · exact holds_plainWord hkeeps hparam h

theorem holds_symbol {c : UInt8} (h : Holds P mode limit s.out) :
    Holds P mode limit (s.symbol decode c).out := by
  unfold Conv.symbol
  split_ifs
  · exact h
  · exact holds_unlessSkipped (holds_textByte hkeeps h) h
  · exact holds_emitChar hkeeps h
  · exact holds_emitChar hkeeps h
  · exact holds_paragraph hkeeps (holds_flush hkeeps h)
  · exact h

theorem holds_opening (h : Holds P mode limit s.out) : Holds P mode limit (s.opening decode).out := by
  unfold Conv.opening
  dsimp only
  split <;> exact holds_flush hkeeps h

theorem holds_closing (h : Holds P mode limit s.out) : Holds P mode limit (s.closing decode).out := by
  unfold Conv.closing
  have hfirst : Holds P mode limit
      (if ¬s.group.fldinst then s.flush decode else { s with out := { s.out with pending := [] } }).out := by
    split
    · exact holds_flush hkeeps h
    · exact holds_pending hkeeps (Nat.zero_le _) h
  generalize (if ¬s.group.fldinst then s.flush decode else { s with out := { s.out with pending := [] } } : Conv) = t
    at hfirst
  dsimp only
  split
  · exact hfirst
  · split
    · exact hfirst
    · dsimp only
      split
      · exact holds_endLink hkeeps hfirst
      · exact hfirst

/-- **One turn.** -/
theorem holds_act {input rest : Bytes} {token : Token} (hlex : lex input = some (token, rest))
    (h : Holds P mode limit s.out) : Holds P mode limit (s.act decode token).out := by
  cases token with
  | opening => exact holds_opening hkeeps h
  | closing => exact holds_closing hkeeps h
  | word name param => exact holds_word hkeeps (lex_param hlex) h
  | hex byte =>
    refine holds_unlessSkipped ?_ h
    cases byte with
    | none => exact h
    | some byte => exact holds_textByte hkeeps h
  | symbol c => exact holds_symbol hkeeps h
  | blank => exact h
  | char c => exact holds_unlessSkipped (holds_textByte hkeeps h) h

/-- **The whole run.** -/
theorem holds_run {input : Bytes} (h : Holds P mode limit s.out) :
    Holds P mode limit (run decode s input).out := by
  induction s, input using run.induct decode with
  | case1 s input hfull =>
    rw [run, if_pos hfull]
    exact h
  | case2 s input hfull hlex =>
    rw [run, if_neg hfull]
    split
    · exact h
    · next heq => rw [hlex] at heq; cases heq
  | case3 s input hfull token rest hlex ih =>
    rw [run, if_neg hfull]
    split
    · exact h
    · next heq =>
      rw [hlex] at heq
      cases heq
      exact ih (holds_act hkeeps hlex h)

/-- What holds of the empty output holds of what is made of it at the end. -/
theorem holds_convert {rtf : Bytes} (h : P (start (modeOf rtf) limit).out) :
    Holds P (modeOf rtf) limit ((run decode (start (modeOf rtf) limit) rtf).flush decode).out :=
  holds_flush hkeeps (holds_run hkeeps ⟨⟨rfl, rfl, Nat.zero_le _, (by decide : 0 < 1252),
    (by decide : 1252 < 2 ^ 31)⟩, h⟩)

end

end UwuMail.Tnef.Rtf
