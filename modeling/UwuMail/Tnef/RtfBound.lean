/-
# How long the output of RTF can get

"Its output is at most about `max` bytes": what is written is counted, but not everything is asked
first.  Format tags are written with the text that needs them, and a tag that was opened has to be
closed.  What carries the bound is not what is written but `debt`, what is written and what is still
to be closed: only text in another format than the one before makes it grow past the limit, and then
the next text does not fit.

NO TEXT AT ALL always fits.  A decoder that gives nothing for the bytes that wait changes the format
as often as it likes.
-/
import Mathlib
import UwuMail.Tnef.Rtf

namespace UwuMail.Tnef.Rtf

open Store (isWhitespace)
open Itip (octets octets_cons)

/-! ## 1. Counting -/

/-- Bytes of the text and the HTML together. -/
def Content.size : Content → Nat
  | .html t => octets t
  | .text t => octets t
  | .rtf t h => octets t + octets h

section
variable {a b : Text} {f : Format} {o : Out}

@[simp] theorem octets_append : octets (a ++ b) = octets a + octets b := by
  simp [octets]

theorem octets_prefix (h : a <+: b) : octets a ≤ octets b := by
  obtain ⟨c, rfl⟩ := h
  rw [octets_append]
  exact Nat.le_add_right _ _

theorem escapedLen_eq (c : Char) : octets (escapeChar c) = escapedLen c := by
  unfold escapeChar escapedLen
  split_ifs <;> first | rfl | simp_all

theorem octets_escape (text : Text) : octets (escape text) = (text.map escapedLen).sum := by
  induction text with
  | nil => rfl
  | cons c text ih =>
    change octets (escapeChar c ++ escape text) = _
    rw [octets_append, escapedLen_eq, ih, List.map_cons, List.sum_cons]

theorem fitting_sum (cost : Char → Nat) (room : Nat) (text : Text) :
    ((fitting cost room text).map cost).sum ≤ room := by
  induction text generalizing room with
  | nil => exact Nat.zero_le _
  | cons c text ih =>
    unfold fitting
    split
    · next hfits =>
      have := ih (room - cost c)
      rw [List.map_cons, List.sum_cons]
      omega
    · exact Nat.zero_le _

/-- What a character costs in the text and, in RTF, in the HTML. -/
theorem cost_sum (text : Text) : (text.map (Out.cost .rtf)).sum = octets text + octets (escape text) := by
  rw [octets_escape]
  induction text with
  | nil => rfl
  | cons c text ih =>
    rw [List.map_cons, List.sum_cons, ih, octets_cons, List.map_cons, List.sum_cons]
    change c.utf8Size + escapedLen c + _ = _
    omega

/-- Where there is no room, nothing fits. -/
theorem fitting_zero (mode : Mode) (text : Text) : fitting (Out.cost mode) 0 text = [] := by
  cases text with
  | nil => rfl
  | cons c text =>
    have hpos : 0 < c.utf8Size := Char.utf8Size_pos c
    have : ¬Out.cost mode c ≤ 0 := by
      cases mode <;> simp only [Out.cost] <;> omega
    rw [fitting, if_neg this]

/-- What closes the format and the link that are open. -/
def Out.debt (o : Out) : Nat := octets (closeTags o.current) + if o.inLink then 4 else 0

theorem octets_maybe (on : Bool) (text : Text) :
    octets (if on then text else []) = if on then octets text else 0 := by
  cases on <;> rfl

theorem tags_le (f : Format) : octets (closeTags f) ≤ 16 ∧
    octets (openTags f) + octets (closeTags f) ≤ 28 := by
  have hone : ∀ on : Bool, (if on then 3 else 0) ≤ 3 ∧ (if on then 4 else 0) ≤ 4 := by decide
  have hbold := hone f.bold
  have hitalic := hone f.italic
  have hunderline := hone f.underline
  have hstrike := hone f.strike
  unfold openTags closeTags
  simp only [octets_append, octets_maybe]
  have h3 : octets "<b>".toList = 3 ∧ octets "<i>".toList = 3 ∧ octets "<u>".toList = 3 ∧
      octets "<s>".toList = 3 :=
    ⟨rfl, rfl, rfl, rfl⟩
  have h4 : octets "</b>".toList = 4 ∧ octets "</i>".toList = 4 ∧ octets "</u>".toList = 4 ∧
      octets "</s>".toList = 4 :=
    ⟨rfl, rfl, rfl, rfl⟩
  rw [h3.1, h3.2.1, h3.2.2.1, h3.2.2.2, h4.1, h4.2.1, h4.2.2.1, h4.2.2.2]
  omega

theorem debt_le (o : Out) : o.debt ≤ 20 := by
  have := (tags_le o.current).1
  unfold Out.debt
  split <;> omega

/-- Closing pays what was owed. -/
theorem closeFormat_used (o : Out) : o.closeFormat.used + o.closeFormat.debt = o.used + o.debt := by
  have hused : o.closeFormat.used = o.used + octets (closeTags o.current) := by
    change octets o.text + octets o.html + octets (o.para ++ closeTags o.current) = _
    rw [octets_append]
    exact (Nat.add_assoc _ _ _).symm
  have hdebt : o.closeFormat.debt = if o.inLink then 4 else 0 := Nat.zero_add _
  rw [hused, hdebt, Out.debt]
  omega

theorem setFormat_used (format : Format) (o : Out) :
    (o.setFormat format).used + (o.setFormat format).debt ≤ o.used + o.debt + 28 := by
  unfold Out.setFormat
  split
  · omega
  · have hclose := closeFormat_used o
    have htags := (tags_le format).2
    have hused : ({ o.closeFormat with para := o.closeFormat.para ++ openTags format, current := format } : Out).used =
        o.closeFormat.used + octets (openTags format) := by
      change octets o.text + octets o.html + octets (o.closeFormat.para ++ openTags format) = _
      rw [octets_append]
      exact (Nat.add_assoc _ _ _).symm
    have hdebt : ({ o.closeFormat with para := o.closeFormat.para ++ openTags format, current := format } : Out).debt =
        octets (closeTags format) + o.closeFormat.debt := by
      change octets (closeTags format) + _ = octets (closeTags format) + (0 + _)
      rw [Nat.zero_add]
    rw [hused, hdebt]
    omega

/-! ## 2. The bound -/

/-- The invariant: what is written and owed goes a little past the limit, and a little more once the
output is full. -/
structure Bounded (o : Out) : Prop where
  full : o.used + o.debt ≤ o.max + 76
  going : o.full = false → o.used + o.debt ≤ o.max + 48

/-- In the modes that write only text there is nothing to close. -/
structure OnlyText (o : Out) : Prop where
  text : octets o.text ≤ o.max
  html : o.html = []
  para : o.para = []
  inLink : o.inLink = false

def Limited (o : Out) : Prop := if o.mode = .rtf then Bounded o else OnlyText o

theorem setFormat_full (format : Format) (o : Out) : (o.setFormat format).full = o.full := by
  unfold Out.setFormat
  split <;> rfl

/-- What one text adds. -/
theorem write_rtf (text : Text) (format : Format) (hmode : o.mode = .rtf) (hfull : o.full = false) :
    let fit := fitting (Out.cost .rtf) (o.max - o.used) text
    (o.write text format).used + (o.write text format).debt ≤
      o.used + o.debt + (fit.map (Out.cost .rtf)).sum + 28 ∧
      (o.write text format).full = decide (fit.length < text.length) := by
  intro fit
  have hset := setFormat_used format { o with full := decide (fit.length < text.length), text := o.text ++ fit }
  have hused : ({ o with full := decide (fit.length < text.length), text := o.text ++ fit } : Out).used =
      o.used + octets fit := by
    change octets (o.text ++ fit) + octets o.html + octets o.para =
      octets o.text + octets o.html + octets o.para + _
    rw [octets_append]
    omega
  have hwrite : o.write text format =
      let o' := ({ o with full := decide (fit.length < text.length), text := o.text ++ fit } : Out).setFormat format
      { o' with para := o'.para ++ escape fit } := by
    unfold Out.write
    rw [hfull, if_neg Bool.false_ne_true]
    rw [if_pos hmode, hmode, Bool.false_or]
  have hpara : ∀ o' : Out, ({ o' with para := o'.para ++ escape fit } : Out).used =
      o'.used + octets (escape fit) := by
    intro o'
    change octets o'.text + octets o'.html + octets (o'.para ++ escape fit) = _
    rw [octets_append]
    exact (Nat.add_assoc _ _ _).symm
  have hdebt : ({ o with full := decide (fit.length < text.length), text := o.text ++ fit } : Out).debt = o.debt := rfl
  rw [hwrite, cost_sum]
  refine ⟨?_, setFormat_full _ _⟩
  rw [hpara]
  change _ + Out.debt (Out.setFormat format _) ≤ _
  omega

/-- A text that is one: it fits, or the output is full then. -/
theorem bounded_write {text : Text} (format : Format) (hmode : o.mode = .rtf) (htext : text ≠ [])
    (h : Bounded o) :
    Bounded (o.write text format) := by
  cases hfull : o.full with
  | true =>
    unfold Out.write
    rw [if_pos hfull]
    exact h
  | false =>
    obtain ⟨hused, hnow⟩ := write_rtf text format hmode hfull
    have hmax := (write_same o text format).2.1
    have hgoing := h.going hfull
    have hdebt := debt_le o
    have hcost := fitting_sum (Out.cost .rtf) (o.max - o.used) text
    refine ⟨?_, fun hfalse => ?_⟩
    · rw [hmax]
      omega
    · rw [hmax]
      -- past the limit nothing would have fit
      by_cases hroom : o.max - o.used = 0
      · rw [hnow, hroom, fitting_zero, decide_eq_false_iff_not, List.length_nil,
          Nat.pos_iff_ne_zero, not_not] at hfalse
        exact absurd (List.length_eq_zero_iff.1 hfalse) htext
      · omega

theorem onlyText_write {text : Text} (format : Format) (hmode : o.mode ≠ .rtf) (h : OnlyText o) :
    OnlyText (o.write text format) := by
  unfold Out.write
  split
  · exact h
  · dsimp only
    rw [if_neg hmode]
    refine ⟨?_, h.html, h.para, h.inLink⟩
    have hcost : Out.cost o.mode = Char.utf8Size := by
      funext c
      cases hm : o.mode with
      | rtf => exact absurd hm hmode
      | html => rfl
      | text => rfl
    have hused : o.used = octets o.text := by
      rw [Out.used, h.html, h.para]
      rfl
    have hsum := fitting_sum (Out.cost o.mode) (o.max - o.used) text
    rw [hcost] at hsum ⊢
    have := h.text
    change octets (o.text ++ _) ≤ o.max
    rw [octets_append]
    change octets o.text + (List.map Char.utf8Size _).sum ≤ _
    omega

theorem bounded_whenFits {n : Nat} {write : Out → Out} (h : Bounded o)
    (hwrite : o.used + n ≤ o.max → Bounded (write o)) : Bounded (o.whenFits n write) := by
  unfold Out.whenFits
  split
  · exact ⟨h.full, fun hfalse => Bool.noConfusion hfalse⟩
  · next hnot =>
    rw [not_or, Nat.not_lt] at hnot
    exact hwrite hnot.2

theorem bounded_of_le (h : o.used + o.debt ≤ o.max + 48) : Bounded o := ⟨by omega, fun _ => h⟩

theorem onlyText_writeRaw {text : Text} (h : OnlyText o) : OnlyText (o.writeRaw text) := by
  unfold Out.writeRaw Out.whenFits
  split
  · exact ⟨h.text, h.html, h.para, h.inLink⟩
  · next hnot =>
    rw [not_or, Nat.not_lt] at hnot
    refine ⟨?_, h.html, h.para, h.inLink⟩
    have hused : o.used = octets o.text := by
      rw [Out.used, h.html, h.para]
      rfl
    change octets (o.text ++ text) ≤ o.max
    rw [octets_append]
    omega

theorem limited_paragraph (h : Limited o) : Limited o.paragraph := by
  unfold Limited at h ⊢
  rw [(paragraph_same o).1]
  split at h
  · next hmode =>
    rw [if_pos hmode]
    unfold Out.paragraph
    rw [hmode]
    refine bounded_whenFits h fun hfits => bounded_of_le ?_
    have htags := (tags_le o.current).1
    have hpara : ∀ para : Text, octets para ≤ octets o.para + octets (closeTags o.current) + 4 →
        octets (o.text ++ ['\n']) + octets (if para = [] then o.html ++ "<div><br></div>\n".toList
          else o.html ++ "<div>".toList ++ para ++ "</div>\n".toList) ≤ o.used + 40 := by
      intro para hle
      have hnewline : octets ['\n'] = 1 := rfl
      have hbreak : octets "<div><br></div>\n".toList = 16 := rfl
      have hopen : octets "<div>".toList = 5 := rfl
      have hclose : octets "</div>\n".toList = 7 := rfl
      rw [Out.used, octets_append, hnewline]
      split
      · rw [octets_append, hbreak]
        omega
      · rw [octets_append, octets_append, octets_append, hopen, hclose]
        omega
    have hanchor : octets "</a>".toList = 4 := rfl
    have hclosed : octets o.closeFormat.para = octets o.para + octets (closeTags o.current) := octets_append
    have hall := hpara (if o.inLink then o.closeFormat.para ++ "</a>".toList else o.closeFormat.para) (by
      split
      · rw [octets_append, hclosed, hanchor]
      · rw [hclosed]
        omega)
    change octets (o.text ++ ['\n']) + octets (if (if o.inLink then o.closeFormat.para ++ "</a>".toList else
      o.closeFormat.para) = [] then o.html ++ "<div><br></div>\n".toList else o.html ++ "<div>".toList ++
        (if o.inLink then o.closeFormat.para ++ "</a>".toList else o.closeFormat.para) ++
          "</div>\n".toList) + 0 + 0 ≤
          o.max + 48
    change o.used + 40 ≤ o.max at hfits
    omega
  · next hmode =>
    rw [if_neg hmode]
    unfold Out.paragraph
    split
    · exact onlyText_writeRaw h
    · exact onlyText_writeRaw h
    · next hm => exact absurd hm hmode

theorem limited_line (h : Limited o) : Limited o.line := by
  by_cases hmode : o.mode = .rtf
  · unfold Limited at h ⊢
    rw [if_pos hmode] at h
    rw [(line_same o).1, if_pos hmode]
    unfold Out.line
    rw [hmode]
    refine bounded_whenFits h fun hfits => bounded_of_le ?_
    have htags := (tags_le o.current).1
    have hnewline : octets ['\n'] = 1 := rfl
    have hbreak : octets "<br>".toList = 4 := rfl
    have hanchor : (if o.inLink then 4 else 0) ≤ 4 := by split <;> decide
    change octets (o.text ++ ['\n']) + octets o.html + octets (o.para ++ closeTags o.current ++
      "<br>".toList) +
      (0 + if o.inLink then 4 else 0) ≤ o.max + 48
    rw [octets_append, octets_append, octets_append, hnewline, hbreak]
    change octets o.text + octets o.html + octets o.para + 40 ≤ o.max at hfits
    omega
  · have hline : o.line = o.paragraph := by
      unfold Out.line
      split
      · next hm => exact absurd hm hmode
      · rfl
    rw [hline]
    exact limited_paragraph h

theorem octets_linkTag (url : Text) : octets (Out.linkTag url) = 9 + octets (escape url) + 2 := by
  unfold Out.linkTag
  rw [octets_append, octets_append]
  exact congrArg₂ (· + ·) (congrArg (· + octets (escape url)) (rfl : octets "<a href=\"".toList = 9))
    (rfl : octets "\">".toList = 2)

theorem limited_startLink {url : Text} (h : Limited o) : Limited (o.startLink url) := by
  unfold Limited at h ⊢
  rw [(startLink_same o url).1]
  by_cases hmode : o.mode = .rtf
  · rw [if_pos hmode] at h ⊢
    unfold Out.startLink
    split
    · exact h
    · refine bounded_whenFits h fun hfits => bounded_of_le ?_
      have htags := (tags_le o.current).1
      have hused : octets (o.para ++ closeTags o.current ++ Out.linkTag url) =
          octets o.para + octets (closeTags o.current) + (octets (escape url) + 11) := by
        rw [octets_append, octets_append, octets_linkTag]
        omega
      change octets o.text + octets o.html + octets (o.para ++ closeTags o.current ++ Out.linkTag url) +
        (0 + if true then 4 else 0) ≤ o.max + 48
      rw [hused, if_pos rfl]
      change octets o.text + octets o.html + octets o.para + (octets (escape url) + 40) ≤ o.max at hfits
      omega
  · rw [if_neg hmode] at h ⊢
    unfold Out.startLink
    rw [if_pos (Or.inl hmode)]
    exact h

theorem endLink_used (o : Out) : o.endLink.used + o.endLink.debt = o.used + o.debt := by
  cases hlink : o.inLink with
  | false =>
    unfold Out.endLink
    rw [hlink, if_neg Bool.false_ne_true]
  | true =>
    have hclose := closeFormat_used o
    have hanchor : octets "</a>".toList = 4 := rfl
    have hused : o.endLink.used = o.closeFormat.used + 4 := by
      unfold Out.endLink
      rw [hlink, if_pos rfl, Out.used]
      rw [octets_append, hanchor]
      exact (Nat.add_assoc _ _ _).symm
    have hdebt : o.endLink.debt = 0 := by
      unfold Out.endLink
      rw [hlink, if_pos rfl]
      rfl
    have hdebt' : o.closeFormat.debt = 4 := by
      have : o.closeFormat.inLink = true := hlink
      rw [Out.debt, this, if_pos rfl]
      rfl
    omega

theorem limited_endLink (h : Limited o) : Limited o.endLink := by
  unfold Limited at h ⊢
  rw [(endLink_same o).1]
  have hfull : o.endLink.full = o.full := by
    unfold Out.endLink
    split <;> rfl
  split at h
  · next hmode =>
    rw [if_pos hmode]
    refine ⟨?_, fun hfalse => ?_⟩
    · rw [endLink_used, (endLink_same o).2.1]
      exact h.full
    · rw [endLink_used, (endLink_same o).2.1]
      exact h.going (hfull ▸ hfalse)
  · next hmode =>
    rw [if_neg hmode]
    unfold Out.endLink
    rw [h.inLink, if_neg Bool.false_ne_true]
    exact h

/-- A decoder that gives something for whatever waits. -/
def Gives (decode : Nat → Bytes → Text) : Prop :=
  ∀ codePage bytes, bytes ≠ [] → bytes.length ≤ maxPending → 0 < codePage → codePage < 2 ^ 31 →
    decode codePage bytes ≠ []

theorem keeps_limited {decode : Nat → Bytes → Text} (hgives : Gives decode) : Keeps decode Limited where
  same _ _ _ _ h := by
    unfold Limited at h ⊢
    split at h
    · next hmode =>
      rw [if_pos hmode]
      exact ⟨h.full, h.going⟩
    · next hmode =>
      rw [if_neg hmode]
      exact ⟨h.text, h.html, h.para, h.inLink⟩
  write := by
    intro o text format htext h
    have hne : text ≠ [] := by
      obtain hne | ⟨codePage, bytes, hbytes, hlen, hpos, hlt, rfl⟩ := htext
      · exact hne
      · exact hgives codePage bytes hbytes hlen hpos hlt
    unfold Limited at h ⊢
    rw [(write_same o text format).1]
    split at h
    · next hmode =>
      rw [if_pos hmode]
      exact bounded_write format hmode hne h
    · next hmode =>
      rw [if_neg hmode]
      exact onlyText_write format hmode h
  paragraph := limited_paragraph
  line := limited_line
  startLink _ := limited_startLink
  endLink := limited_endLink

/-- What the closing tags of the last paragraph may add is owed already. -/
theorem size_finish (h : Limited o) : (finish o).size ≤ o.max + 88 := by
  unfold Limited at h
  unfold finish
  cases hmode : o.mode with
  | html =>
    rw [hmode, if_neg (by decide)] at h
    have := h.text
    exact this.trans (Nat.le_add_right _ _)
  | text =>
    rw [hmode, if_neg (by decide)] at h
    have := h.text
    exact this.trans (Nat.le_add_right _ _)
  | rtf =>
    rw [hmode, if_pos rfl] at h
    have hend := endLink_used o
    have hfull := h.full
    have htrim : octets (o.endLink.text.rdropWhile isWhitespace) ≤ octets o.endLink.text :=
      octets_prefix (List.rdropWhile_prefix _ _)
    have hhtml : octets (if o.endLink.para = [] then o.endLink.html
        else o.endLink.html ++ "<div>".toList ++ o.endLink.closeFormat.para ++ "</div>\n".toList) ≤
          octets o.endLink.html + octets o.endLink.para + octets (closeTags o.endLink.current) + 12 := by
      have hopen : octets "<div>".toList = 5 := rfl
      have hclose : octets "</div>\n".toList = 7 := rfl
      have hpara : octets o.endLink.closeFormat.para =
          octets o.endLink.para + octets (closeTags o.endLink.current) :=
        octets_append
      split
      · omega
      · rw [octets_append, octets_append, octets_append, hopen, hclose, hpara]
        omega
    change octets _ + octets _ ≤ _
    rw [Out.used, Out.debt] at hend
    omega

/-- **The bound**: the limit, and what closes the tags. -/
theorem size_le {decode : Nat → Bytes → Text} (hgives : Gives decode) (rtf : Bytes) (max : Nat) :
    (convertBounded decode rtf max).1.size ≤ max + 88 := by
  have hstart : Limited (start (modeOf rtf) max).out := by
    unfold Limited
    split
    · exact ⟨Nat.zero_le _, fun _ => Nat.zero_le _⟩
    · exact ⟨Nat.zero_le _, rfl, rfl, rfl⟩
  obtain ⟨hbase, hlimited⟩ := holds_convert (keeps_limited hgives) hstart
  have := size_finish hlimited
  rw [hbase.max_eq] at this
  exact this

end

/-! ## 3. A decoder that gives nothing -/

def hexChar (n : Nat) : UInt8 := (if n < 10 then 48 + n else 87 + n).toUInt8

/-- `\'hh` -/
def hexText (b : UInt8) : Bytes := [92, 39, hexChar (b.toNat / 16), hexChar (b.toNat % 16)]

def digitsText (n : Nat) : Bytes := (Nat.toDigits 10 n).map fun c => c.toNat.toUInt8

def boldOn : Bytes := [92, 98, 32]
def boldOff : Bytes := [92, 98, 48, 32]

/-- Bold and not bold, again and again, each time with the same bytes. -/
def rounds (bytes : Bytes) : Nat → Bytes
  | 0 => []
  | n + 1 => boldOff ++ bytes.flatMap hexText ++ boldOn ++ bytes.flatMap hexText ++ rounds bytes n

/-- A document in the code page, with the rounds. -/
def document (codePage : Nat) (bytes : Bytes) (n : Nat) : Bytes :=
  ascii "\\ansicpg" ++ digitsText codePage ++ [32] ++ boldOn ++ bytes.flatMap hexText ++ rounds bytes n

section
variable {decode : Nat → Bytes → Text} {codePage : Nat} {bytes pending rest : Bytes} {para : Text}
  {current bold : Bool}

theorem hexByte_hexChar : ∀ n < 256, hexByte (hexChar (n / 16))
    (hexChar (n % 16)) = some n.toUInt8 := by decide +kernel

theorem lex_hexText (b : UInt8) : lex (hexText b ++ rest) = some (.hex (some b), rest) := by
  have hbyte := hexByte_hexChar b.toNat b.toNat_lt
  rw [show b.toNat.toUInt8 = b from UInt8.ofNat_toNat] at hbyte
  have halpha : isAlphabetic 39 = false := by decide
  simp [hexText, lex, halpha, hbyte]

theorem lex_boldOn : lex (boldOn ++ rest) = some (.word "b" none, rest) := rfl

theorem lex_boldOff : lex (boldOff ++ rest) = some (.word "b" (some 0), rest) := rfl

theorem isDigit_byte {c : Char} (h : c.isDigit = true) : isDigit c.toNat.toUInt8 = true ∧
    c.toNat.toUInt8.toNat - 48 = c.toNat - '0'.toNat := by
  have hrange : 48 ≤ c.toNat ∧ c.toNat ≤ 57 := by
    rw [Char.isDigit, Bool.and_eq_true, decide_eq_true_eq, decide_eq_true_eq] at h
    exact ⟨UInt32.le_iff_toNat_le.1 h.1, UInt32.le_iff_toNat_le.1 h.2⟩
  have hbyte : c.toNat.toUInt8.toNat = c.toNat := by
    rw [Nat.toUInt8, UInt8.toNat_ofNat', Nat.mod_eq_of_lt (by omega)]
  refine ⟨?_, by rw [hbyte]; rfl⟩
  rw [isDigit, Bool.and_eq_true, decide_eq_true_eq, decide_eq_true_eq, UInt8.le_iff_toNat_le,
    UInt8.le_iff_toNat_le, hbyte]
  exact hrange

theorem digitsValue_digits {digits : List Char} (h : ∀ c ∈ digits, c.isDigit = true) (init : Nat) :
    (digits.map fun c => c.toNat.toUInt8).foldl (fun (value : Int) d => value * 10 + (d.toNat - 48 : Nat)) init =
      Nat.ofDigitChars 10 digits init := by
  induction digits generalizing init with
  | nil => rfl
  | cons c digits ih =>
    have hc := (isDigit_byte (h c List.mem_cons_self)).2
    rw [List.map_cons, List.foldl_cons, hc, Nat.ofDigitChars_cons]
    have := ih (fun d hd => h d (List.mem_cons_of_mem _ hd)) (10 * init + (c.toNat - '0'.toNat))
    rw [← this]
    congr 1
    push_cast
    omega

theorem spanAtMost_append {p : UInt8 → Bool} {n : Nat} {taken : Bytes} {d : UInt8}
    (hall : ∀ c ∈ taken, p c = true)
    (hlen : taken.length ≤ n) (hd : p d = false) :
        spanAtMost p n (taken ++ d :: rest) = (taken, d :: rest) := by
  have htaken : ((taken ++ d :: rest).take n).takeWhile p = taken := by
    rw [List.take_append, List.take_of_length_le hlen, List.takeWhile_append_of_pos hall]
    cases n - taken.length with
    | zero => exact List.append_nil _
    | succ k => rw [List.take_succ_cons, List.takeWhile_cons_of_neg (by rw [hd]; decide), List.append_nil]
  unfold spanAtMost
  dsimp only
  rw [htaken, List.drop_left]

theorem lex_ansicpg (hlt : codePage < 2 ^ 31) :
    lex (ascii "\\ansicpg" ++ digitsText codePage ++ [32] ++ rest) =
        some (.word "ansicpg" (some codePage), rest) := by
  have hdigit : ∀ c ∈ Nat.toDigits 10 codePage, c.isDigit = true := fun c hc =>
    Nat.isDigit_of_mem_toDigits (by decide) (by decide) hc
  have hlen : (digitsText codePage).length ≤ 10 := by
    rw [digitsText, List.length_map]
    exact (Nat.length_toDigits_le_iff (by decide) (by decide)).2 (by omega)
  have hall : ∀ d ∈ digitsText codePage, isDigit d = true := by
    intro d hd
    obtain ⟨c, hc, rfl⟩ := List.mem_map.1 hd
    exact (isDigit_byte (hdigit c hc)).1
  have hvalue : digitsValue (digitsText codePage) = codePage := by
    have := digitsValue_digits hdigit 0
    rw [Nat.ofDigitChars_ten_toDigits] at this
    exact this
  have hne : digitsText codePage ≠ [] := fun hnil => Nat.toDigits_ne_nil (List.map_eq_nil_iff.1 hnil)
  have hshape : ascii "\\ansicpg" ++ digitsText codePage ++ [32] ++ rest =
      92 :: 97 :: ([110, 115, 105, 99, 112, 103] ++ (digitsText codePage ++ 32 :: rest)) := by
    rw [List.append_assoc, List.append_assoc]
    rfl
  have hword : lexWord (97 :: ([110, 115, 105, 99, 112, 103] ++ (digitsText codePage ++ 32 :: rest))) =
      (.word "ansicpg" (some codePage), rest) := by
    obtain ⟨first, digits, hdigits⟩ := List.exists_cons_of_ne_nil hne
    have hfirst : isDigit first = true := hall first (hdigits ▸ List.mem_cons_self)
    have halpha : isAlphabetic first = false := by
      rw [isDigit, Bool.and_eq_true, decide_eq_true_eq, decide_eq_true_eq, UInt8.le_iff_toNat_le,
        UInt8.le_iff_toNat_le] at hfirst
      obtain ⟨-, hle⟩ := hfirst
      change first.toNat ≤ 57 at hle
      have h97 : ¬97 ≤ first := fun h => absurd (UInt8.le_iff_toNat_le.1 h) (by change ¬97 ≤ first.toNat; omega)
      have h65 : ¬65 ≤ first := fun h => absurd (UInt8.le_iff_toNat_le.1 h) (by change ¬65 ≤ first.toNat; omega)
      simp [isAlphabetic, h97, h65]
    have hminus : first ≠ 45 := by
      rintro rfl
      exact absurd hfirst (by decide)
    have hletters : spanAtMost isAlphabetic 32 (97 :: ([110, 115, 105, 99, 112, 103] ++
      (digitsText codePage ++ 32 :: rest))) =
        ([97, 110, 115, 105, 99, 112, 103], digitsText codePage ++ 32 :: rest) := by
      rw [hdigits]
      have hname : [97, 110, 115, 105, 99, 112, 103].all isAlphabetic = true := rfl
      exact spanAtMost_append (fun c hc => List.all_eq_true.1 hname c hc) (by decide) halpha
    have hspan : spanAtMost isDigit 10 (digitsText codePage ++ 32 :: rest) = (digitsText codePage,
        32 :: rest) :=
      spanAtMost_append hall hlen (by decide)
    have hhead : (digitsText codePage ++ 32 :: rest).head? ≠ some 45 := by
      rw [hdigits]
      exact fun heq => hminus (Option.some.inj heq)
    have hclamp : clamp32 codePage = codePage := by
      unfold clamp32
      omega
    unfold lexWord
    rw [hletters]
    simp only [if_neg hhead, hspan, if_neg hne, hvalue, hclamp]
    rfl
  rw [hshape]
  change some (lexWord _) = _
  rw [hword]

/-- The state after some rounds: nothing but the format is in the paragraph. -/
def inRounds (codePage : Nat) (pending : Bytes) (para : Text) (current bold : Bool) : Conv where
  out := ⟨.rtf, 0, codePage, pending, none, [], [], para, ⟨current, false, false, false⟩, false, [], false⟩
  stack := []
  group := { Group.default with format := ⟨bold, false, false, false⟩ }
  excess := 0
  skipChars := 0
  star := false

theorem byte_of_lt {o : Out} {b : UInt8} {f : Format} (h : o.pending.length < maxPending) :
    o.byte decode b f = { o with pending := o.pending ++ [b] } := by
  unfold Out.byte
  rw [if_neg (Nat.not_le.2 h)]

theorem act_hex (b : UInt8) (h : pending.length < maxPending) :
    (inRounds codePage pending para current bold).act decode (.hex (some b)) =
      inRounds codePage (pending ++ [b]) para current bold := by
  have hbyte := @byte_of_lt decode (inRounds codePage pending para current bold).out b ⟨bold, false,
    false, false⟩ h
  change ({ inRounds codePage pending para current bold with
    out := (inRounds codePage pending para current bold).out.byte decode b ⟨bold, false, false,
      false⟩ } : Conv) = _
  rw [hbyte]
  rfl

/-- What a run does with one token. -/
theorem run_of_lex {s : Conv} {input : Bytes} {token : Token} (hfull : s.out.full = false)
    (h : lex input = some (token, rest)) : run decode s input = run decode (s.act decode token)
      (rest.drop (s.binary token)) := by
  rw [run, if_neg (by rw [hfull]; exact Bool.false_ne_true)]
  split
  · next heq =>
    rw [h] at heq
    cases heq
  · next heq =>
    rw [h] at heq
    cases heq
    rfl

theorem run_hexes (h : pending.length + bytes.length ≤ maxPending) :
    run decode (inRounds codePage pending para current bold) (bytes.flatMap hexText ++ rest) =
      run decode (inRounds codePage (pending ++ bytes) para current bold) rest := by
  induction bytes generalizing pending with
  | nil => rw [List.append_nil, List.flatMap_nil, List.nil_append]
  | cons b bytes ih =>
    rw [List.length_cons] at h
    rw [List.flatMap_cons, List.append_assoc, run_of_lex rfl (lex_hexText b), act_hex b (by omega)]
    change run decode _ (bytes.flatMap hexText ++ rest) = _
    rw [ih (by rw [List.length_append, List.length_singleton]; omega), List.append_assoc]
    rfl

/-- Nothing is written, but in another format. -/
theorem flush_nothing (hne : pending ≠ []) (hnothing : decode codePage pending = []) :
    (inRounds codePage pending para current bold).out.flush decode ⟨bold, false, false, false⟩ =
      (inRounds codePage [] (if bold = current then para else
        para ++ closeTags ⟨current, false, false, false⟩ ++ openTags ⟨bold, false, false, false⟩)
            bold bold).out := by
  have hflush : (inRounds codePage pending para current bold).out.flush decode ⟨bold, false, false, false⟩ =
      Out.write [] ⟨bold, false, false, false⟩ (inRounds codePage [] para current bold).out := by
    unfold Out.flush
    rw [if_neg (show (inRounds codePage pending para current bold).out.pending ≠ [] from hne)]
    change Out.write (decode codePage pending) _ _ = _
    rw [hnothing]
    rfl
  rw [hflush]
  cases bold <;> cases current <;> simp [Out.write, Out.setFormat, Out.closeFormat, inRounds, fitting, escape]

theorem act_bold {param : Option Int} (hne : pending ≠ []) (hnothing : decode codePage pending = []) :
    (inRounds codePage pending para current bold).act decode (.word "b" param) =
      inRounds codePage [] (if bold = current then para else
        para ++ closeTags ⟨current, false, false, false⟩ ++ openTags ⟨bold, false, false, false⟩) bold
          (param.all (· ≠ 0)) := by
  have hflush := @flush_nothing decode codePage pending para current bold hne hnothing
  change ({ inRounds codePage pending para current bold with
    out := (inRounds codePage pending para current bold).out.flush decode ⟨bold, false, false, false⟩
    group := { Group.default with format := ⟨param.all (· ≠ 0), false, false, false⟩ } } : Conv) = _
  rw [hflush]
  rfl

/-- One round opens and closes one element. -/
theorem run_round (hne : bytes ≠ []) (hlen : bytes.length ≤ maxPending)
    (hnothing : decode codePage bytes = []) :
    run decode (inRounds codePage bytes para false true)
        (boldOff ++ bytes.flatMap hexText ++ boldOn ++ bytes.flatMap hexText ++ rest) =
      run decode (inRounds codePage bytes (para ++ "<b></b>".toList) false true) rest := by
  rw [List.append_assoc, List.append_assoc, List.append_assoc, run_of_lex rfl lex_boldOff,
    act_bold hne hnothing]
  change run decode (inRounds codePage [] (para ++ closeTags ⟨false, false, false, false⟩ ++
    openTags ⟨true, false, false, false⟩) true false) _ = _
  change run decode _ (bytes.flatMap hexText ++ _) = _
  rw [run_hexes (by simpa using hlen), List.nil_append, run_of_lex rfl lex_boldOn, act_bold hne hnothing]
  change run decode (inRounds codePage [] (para ++ closeTags ⟨false, false, false, false⟩ ++
    openTags ⟨true, false, false, false⟩ ++ closeTags ⟨true, false, false, false⟩ ++
      openTags ⟨false, false, false, false⟩) false true) (bytes.flatMap hexText ++ rest) = _
  rw [run_hexes (by simpa using hlen), List.nil_append]
  congr 2
  simp [closeTags, openTags]

theorem run_rounds (hne : bytes ≠ []) (hlen : bytes.length ≤ maxPending)
    (hnothing : decode codePage bytes = []) (n : Nat) :
    ∃ para', 7 * n + octets para ≤ octets para' ∧
      run decode (inRounds codePage bytes para false true) (rounds bytes n) =
        inRounds codePage bytes para' false true := by
  induction n generalizing para with
  | zero =>
    refine ⟨para, Nat.le_of_eq (Nat.zero_add _), ?_⟩
    change run decode _ [] = _
    rw [run, if_neg (by exact Bool.false_ne_true)]
    rfl
  | succ n ih =>
    obtain ⟨para', hle, hrun⟩ := @ih (para ++ "<b></b>".toList)
    refine ⟨para', ?_, ?_⟩
    · have hround : octets "<b></b>".toList = 7 := rfl
      rw [octets_append, hround] at hle
      omega
    · rw [rounds, run_round hne hlen hnothing, hrun]

/-- No letter that the modes of Outlook's own are recognised by is in the document. -/
theorem modeOf_document (n : Nat) : modeOf (document codePage bytes n) = .rtf := by
  have hhex : ∀ n < 16, hexChar n ≠ 111 := by decide
  have hclear : ∀ bytes : Bytes, (111 : UInt8) ∉ bytes.flatMap hexText := by
    intro bytes hmem
    obtain ⟨b, -, hb⟩ := List.mem_flatMap.1 hmem
    have hlt := b.toNat_lt
    simp only [hexText, List.mem_cons, List.not_mem_nil, or_false] at hb
    obtain hb | hb | hb | hb := hb
    · exact absurd hb (by decide)
    · exact absurd hb (by decide)
    · exact hhex _ (by omega) hb.symm
    · exact hhex _ (by omega) hb.symm
  have hrounds : ∀ n, (111 : UInt8) ∉ rounds bytes n := by
    intro n
    induction n with
    | zero => exact List.not_mem_nil
    | succ n ih =>
      simp only [rounds, List.mem_append, not_or]
      exact ⟨⟨⟨⟨by decide, hclear bytes⟩, by decide⟩, hclear bytes⟩, ih⟩
  have hdigits : (111 : UInt8) ∉ digitsText codePage := by
    intro hmem
    obtain ⟨c, hc, heq⟩ := List.mem_map.1 hmem
    have := (isDigit_byte (Nat.isDigit_of_mem_toDigits (by decide) (by decide) hc)).1
    rw [heq] at this
    exact absurd this (by decide)
  have hnone : (111 : UInt8) ∉ document codePage bytes n := by
    simp only [document, List.mem_append, not_or]
    exact ⟨⟨⟨⟨⟨by decide, hdigits⟩, by decide⟩, by decide⟩, hclear bytes⟩, hrounds n⟩
  have hhas : ∀ needle : String, (111 : UInt8) ∈ ascii needle →
      has needle (document codePage bytes n) = false := by
    intro needle hneedle
    unfold has
    rw [List.any_eq_false]
    intro tail htail hprefix
    have hmem := (List.isPrefixOf_iff_prefix.1 hprefix).subset hneedle
    exact hnone (List.mem_of_mem_take (((List.mem_tails _ _).1 htail).subset hmem))
  unfold modeOf
  rw [hhas "\\fromhtml" (by decide), hhas "\\fromtext" (by decide)]
  rfl

/-- **The output of such a document has no bound**, whatever is allowed. -/
theorem size_document (hpos : 0 < codePage) (hlt : codePage < 2 ^ 31) (hne : bytes ≠ [])
    (hlen : bytes.length ≤ maxPending)
    (hnothing : decode codePage bytes = []) (n : Nat) :
    7 * n ≤ (convertBounded decode (document codePage bytes n) 0).1.size := by
  have hcode : (start .rtf 0).act decode (.word "ansicpg" (some codePage)) =
      inRounds codePage [] [] false false := by
    have hpage : (if (codePage : Int) > 0 then (codePage : Int).toNat else 1252) = codePage := by
      rw [if_pos (by omega)]
      rfl
    change ({ start .rtf 0 with out := { (start .rtf 0).out with
      codePage := if (codePage : Int) > 0 then (codePage : Int).toNat else 1252 } } : Conv) = _
    rw [hpage]
    rfl
  have hbold : (inRounds codePage [] [] false false).act decode (.word "b" none) = inRounds codePage
    [] [] false true := rfl
  obtain ⟨para, hle, hrounds⟩ := @run_rounds decode codePage bytes [] hne hlen hnothing n
  have hrun : run decode (start .rtf 0) (document codePage bytes n) =
      inRounds codePage bytes para false true := by
    have hshape : document codePage bytes n =
        ascii "\\ansicpg" ++ digitsText codePage ++ [32] ++
            (boldOn ++ (bytes.flatMap hexText ++ rounds bytes n)) := by
      simp only [document, List.append_assoc]
    rw [hshape, run_of_lex rfl (lex_ansicpg hlt), hcode]
    change run decode _ (boldOn ++ _) = _
    rw [run_of_lex rfl lex_boldOn, hbold]
    change run decode _ (bytes.flatMap hexText ++ _) = _
    rw [run_hexes (by simpa using hlen), List.nil_append, hrounds]
  have hflush := @flush_nothing decode codePage bytes para false true hne hnothing
  have hout : ((run decode (start (modeOf (document codePage bytes n)) 0)
    (document codePage bytes n)).flush decode).out =
      (inRounds codePage [] (para ++ closeTags ⟨false, false, false, false⟩ ++ openTags ⟨true, false, false, false⟩)
        true true).out := by
    rw [modeOf_document, hrun]
    exact hflush
  change _ ≤ (finish ((run decode (start (modeOf (document codePage bytes n)) 0) (document codePage bytes n)).flush
    decode).out).size
  rw [hout]
  have hfinish : ∀ p : Text, p ≠ [] → octets p ≤ (finish (inRounds codePage [] p true true).out).size := by
    intro p hp
    have hend : (inRounds codePage [] p true true).out.endLink = (inRounds codePage [] p true true).out := rfl
    unfold finish
    rw [hend]
    change octets p ≤ octets _ + octets (if p = [] then _ else _ ++ "<div>".toList ++ (p ++ _) ++ _)
    rw [if_neg hp]
    simp only [octets_append]
    omega
  refine le_trans ?_ (hfinish _ ?_)
  · rw [octets_append, octets_append]
    omega
  · exact List.append_ne_nil_of_right_ne_nil _ (List.cons_ne_nil _ _)

end

/-- **The output of RTF has a bound for exactly the decoders that always give something**, and it is
the limit and 88 bytes then. -/
theorem output_bounded (decode : Nat → Bytes → Text) :
    ((∃ slack, ∀ rtf max, (convertBounded decode rtf max).1.size ≤ max + slack) ↔ Gives decode) ∧
      (Gives decode → ∀ rtf max, (convertBounded decode rtf max).1.size ≤ max + 88) := by
  refine ⟨⟨?_, fun h => ⟨88, size_le h⟩⟩, size_le⟩
  rintro ⟨slack, hslack⟩ codePage bytes hne hlen hpos hlt hnothing
  have hle := hslack (document codePage bytes (slack + 1)) 0
  have := size_document hpos hlt hne hlen hnothing (slack + 1)
  omega

/-- The bytes that name ASCII as the alphabet of ISO-2022-JP. -/
def asciiEscape : Bytes := [0x1b, 0x28, 0x42]

/-- As much of ISO-2022-JP as the document needs: the escape sequence is no text. -/
def iso2022jp (codePage : Nat) (bytes : Bytes) : Text :=
  if codePage = 50220 ∧ bytes = asciiEscape then [] else bytes.map fun b => Char.ofNat b.toNat

theorem escapes_unbounded : ¬∃ slack, ∀ rtf max, (convertBounded iso2022jp rtf max).1.size ≤ max + slack := by
  rintro ⟨slack, hslack⟩
  have hle := hslack (document 50220 asciiEscape (slack + 1)) 0
  have := @size_document iso2022jp 50220 asciiEscape
    (by decide) (by decide) (by decide) (by decide) rfl (slack + 1)
  omega

end UwuMail.Tnef.Rtf
