/-
# What RTF becomes is safe markup

The HTML of a plain RTF body goes to the reader of a message.  Whatever the bytes are, and wherever
the output is cut, it is paragraphs of escaped text in which every element is closed in its turn.

The paragraph being written is a BEGINNING of such markup, with the tags that are still to be
closed.  Each way to write keeps this (`keeps_safe`), so the run does.
-/
import Mathlib
import UwuMail.Tnef.Rtf

namespace UwuMail.Tnef.Rtf

/-! ## 1. Markup -/

def isAttributeChar (c : Char) : Bool := c != '"' && c != '<' && c != '>'

/-- What an attribute in quotation marks may hold: no quotation mark and no angle bracket. -/
def AttributeText (text : Text) : Prop := ∀ c ∈ text, isAttributeChar c = true

/-- Bold, italic, underline and strike-through. -/
def elements : List Char := ['b', 'i', 'u', 's']

/-- What is within a paragraph, in a link or not in one. -/
inductive Inline : Bool → Text → Prop
  | nil {link : Bool} : Inline link []
  | append {link : Bool} {a b : Text} : Inline link a → Inline link b → Inline link (a ++ b)
  /-- A character, escaped. -/
  | char {link : Bool} (c : Char) : Inline link (escapeChar c)
  | br {link : Bool} : Inline link "<br>".toList
  | element {link : Bool} {tag : Char} {inner : Text} : tag ∈ elements → Inline link inner →
      Inline link (['<', tag, '>'] ++ inner ++ ['<', '/', tag, '>'])
  /-- A link to a web page or a mail address, never within another one. -/
  | link {url inner : Text} : isLinkable url = true → AttributeText (escape url) → Inline true inner →
      Inline false ("<a href=\"".toList ++ escape url ++ "\">".toList ++ inner ++ "</a>".toList)

/-- Paragraphs, one after another. -/
inductive Markup : Text → Prop
  | nil : Markup []
  | div {before inner : Text} : Markup before → Inline false inner →
      Markup (before ++ "<div>".toList ++ inner ++ "</div>\n".toList)

/-! ## 2. What was written so far -/

/-- A beginning of a paragraph in which no format is open: if a link is, it is the last thing that
was begun. -/
def Begun : Bool → Text → Prop
  | false, base => Inline false base
  | true, base => ∃ before url inner, Inline false before ∧ isLinkable url = true ∧ Inline true inner ∧
      base = before ++ Out.linkTag url ++ inner

/-- The invariant: whole paragraphs, and the beginning of one with the format that is open. -/
structure Safe (o : Out) : Prop where
  html : Markup o.html
  para : ∃ base inner, Begun o.inLink base ∧ Inline o.inLink inner ∧
    o.para = base ++ openTags o.current ++ inner

section
variable {link : Bool} {text inner base : Text} {f : Format} {o : Out} {decode : Nat → Bytes → Text}

theorem inline_escape (text : Text) : Inline link (escape text) := by
  induction text with
  | nil => exact .nil
  | cons c text ih => exact .append (.char c) ih

theorem attributeText_escape (text : Text) : AttributeText (escape text) := by
  intro c hc
  obtain ⟨d, -, hc⟩ := List.mem_flatMap.1 hc
  have hall : ∀ name : Text, name.all isAttributeChar = true → c ∈ name → isAttributeChar c = true :=
    fun _ h hmem => List.all_eq_true.1 h c hmem
  unfold escapeChar at hc
  split_ifs at hc with hamp hlt hgt hquote hapos
  · exact hall "&amp;".toList rfl hc
  · exact hall "&lt;".toList rfl hc
  · exact hall "&gt;".toList rfl hc
  · exact hall "&quot;".toList rfl hc
  · exact hall "&#39;".toList rfl hc
  · obtain rfl := List.mem_singleton.1 hc
    simp [isAttributeChar, hquote, hlt, hgt]

theorem inline_maybe (tag : Char) (htag : tag ∈ elements) (on : Bool) (h : Inline link inner) :
    Inline link ((if on then ['<', tag, '>'] else []) ++ inner ++
        (if on then ['<', '/', tag, '>'] else [])) := by
  cases on with
  | false => simpa using h
  | true => exact .element htag h

/-- The tags of a format are closed in the order in which they have to be. -/
theorem inline_format (f : Format) (h : Inline link inner) :
    Inline link (openTags f ++ inner ++ closeTags f) := by
  have := inline_maybe 'b' (by decide) f.bold (inline_maybe 'i' (by decide) f.italic
    (inline_maybe 'u' (by decide) f.underline (inline_maybe 's' (by decide) f.strike h)))
  have htags : openTags f = (if f.bold then ['<', 'b', '>'] else []) ++
    (if f.italic then ['<', 'i', '>'] else []) ++
      (if f.underline then ['<', 'u', '>'] else []) ++ (if f.strike then ['<', 's', '>'] else []) := rfl
  have htags' : closeTags f = (if f.strike then ['<', '/', 's', '>'] else []) ++
      (if f.underline then ['<', '/', 'u', '>'] else []) ++ (if f.italic then ['<', '/', 'i', '>'] else []) ++
      (if f.bold then ['<', '/', 'b', '>'] else []) := rfl
  rw [htags, htags']
  simpa only [List.append_assoc] using this

theorem Begun.append (h : Begun link base) (hinner : Inline link inner) : Begun link (base ++ inner) := by
  cases link with
  | false => exact Inline.append h hinner
  | true =>
    obtain ⟨before, url, more, hbefore, hurl, hmore, rfl⟩ := h
    exact ⟨before, url, more ++ inner, hbefore, hurl, hmore.append hinner, List.append_assoc _ _ _⟩

/-- An open link that is closed. -/
theorem Begun.close (h : Begun true base) : Inline false (base ++ "</a>".toList) := by
  obtain ⟨before, url, inner, hbefore, hurl, hinner, rfl⟩ := h
  have hlink : Inline false (Out.linkTag url ++ inner ++ "</a>".toList) :=
    .link hurl (attributeText_escape url) hinner
  rw [List.append_assoc before, List.append_assoc before]
  exact hbefore.append hlink

theorem openTags_default : openTags Format.default = [] := rfl

/-- With the format closed, the paragraph is a beginning. -/
theorem Safe.closed (h : Safe o) : Begun o.inLink o.closeFormat.para := by
  obtain ⟨base, inner, hbase, hinner, hpara⟩ := h.para
  have := hbase.append (inline_format o.current hinner)
  change Begun o.inLink (o.para ++ closeTags o.current)
  rw [hpara]
  simpa only [List.append_assoc] using this

theorem safe_of_begun (hhtml : Markup o.html) (hpara : Begun o.inLink o.para)
    (hcurrent : o.current = Format.default) :
    Safe o :=
  ⟨hhtml, o.para, [], hpara, .nil, by rw [hcurrent, openTags_default, List.append_nil, List.append_nil]⟩

theorem Safe.append (h : Safe o) (htext : Inline o.inLink text) : Safe { o with para := o.para ++ text } := by
  obtain ⟨base, inner, hbase, hinner, hpara⟩ := h.para
  refine ⟨h.html, base, inner ++ text, hbase, hinner.append htext, ?_⟩
  change o.para ++ text = _
  rw [hpara, List.append_assoc]

theorem safe_setFormat (format : Format) (h : Safe o) : Safe (o.setFormat format) := by
  unfold Out.setFormat
  split
  · exact h
  · exact ⟨h.html, o.closeFormat.para, [], h.closed, .nil, (List.append_nil _).symm⟩

theorem safe_write (format : Format) (h : Safe o) : Safe (o.write text format) := by
  unfold Out.write
  split
  · exact h
  · dsimp only
    split
    · refine Safe.append (safe_setFormat format ?_) (inline_escape _)
      exact ⟨h.html, h.para⟩
    · exact ⟨h.html, h.para⟩

theorem safe_whenFits {n : Nat} {write : Out → Out} (hwrite : Safe (write o)) (h : Safe o) :
    Safe (o.whenFits n write) := by
  unfold Out.whenFits
  split
  · exact ⟨h.html, h.para⟩
  · exact hwrite

/-- What the link tag begins when it was not begun, and what is a whole paragraph when it is
closed. -/
theorem inline_closed (h : Safe o) : Inline false (o.closeFormat.para ++ if o.inLink
    then "</a>".toList else []) := by
  have hclosed := h.closed
  cases hlink : o.inLink with
  | false =>
    rw [hlink] at hclosed
    rw [if_neg Bool.false_ne_true, List.append_nil]
    exact hclosed
  | true =>
    rw [hlink] at hclosed
    exact hclosed.close

theorem safe_paragraph (h : Safe o) : Safe o.paragraph := by
  unfold Out.paragraph
  split
  · exact safe_whenFits ⟨h.html, h.para⟩ h
  · exact safe_whenFits ⟨h.html, h.para⟩ h
  · refine safe_whenFits ?_ h
    have hdiv : ∀ para, Inline false para → Markup (if para = [] then o.html ++ "<div><br></div>\n".toList
        else o.html ++ "<div>".toList ++ para ++ "</div>\n".toList) := by
      intro para hpara
      split
      · have hbreak : "<div><br></div>\n".toList = "<div>".toList ++ "<br>".toList ++ "</div>\n".toList := rfl
        rw [hbreak, ← List.append_assoc, ← List.append_assoc]
        exact .div h.html .br
      · exact .div h.html hpara
    refine safe_of_begun (hdiv _ ?_) Inline.nil rfl
    have hinline := inline_closed h
    change Inline false (if o.inLink then o.closeFormat.para ++ "</a>".toList else o.closeFormat.para)
    split at hinline
    · next hlink => rwa [if_pos hlink]
    · next hlink => rwa [if_neg hlink, ← List.append_nil o.closeFormat.para]

theorem safe_line (h : Safe o) : Safe o.line := by
  unfold Out.line
  split
  · refine safe_whenFits ?_ h
    exact safe_of_begun h.html (h.closed.append .br) rfl
  · exact safe_paragraph h

theorem safe_startLink {url : Text} (hurl : isLinkable url = true) (h : Safe o) : Safe (o.startLink url) := by
  unfold Out.startLink
  split
  · exact h
  · next hnot =>
    refine safe_whenFits ?_ h
    have hlink : o.inLink = false := by
      rw [not_or] at hnot
      exact Bool.eq_false_of_not_eq_true hnot.2
    have hclosed := h.closed
    rw [hlink] at hclosed
    exact safe_of_begun h.html ⟨o.closeFormat.para, url, [], hclosed, hurl, .nil, (List.append_nil _).symm⟩ rfl

theorem safe_endLink (h : Safe o) : Safe o.endLink := by
  unfold Out.endLink
  split
  · next hlink =>
    have hclosed := h.closed
    rw [hlink] at hclosed
    exact safe_of_begun h.html hclosed.close rfl
  · exact h

theorem keeps_safe : Keeps decode Safe where
  same _ _ _ _ h := ⟨h.html, h.para⟩
  write format _ h := safe_write format h
  paragraph := safe_paragraph
  line := safe_line
  startLink := safe_startLink
  endLink := safe_endLink

/-- No link is open after the last one was closed. -/
theorem endLink_inLink : o.endLink.inLink = false := by
  unfold Out.endLink
  split
  · rfl
  · next h => exact Bool.eq_false_of_not_eq_true h

end

/-- **The HTML of an RTF body.**  It is paragraphs of escaped text, line breaks, formats and links,
each element closed within the one it was begun in, and a link goes to a web page or a mail address. -/
theorem rtf_markup (decode : Nat → Bytes → Text) (rtf : Bytes) (max : Nat) :
    match (convertBounded decode rtf max).1 with
    | .rtf _ html => Markup html
    | _ => True := by
  have hsafe : Safe ((run decode (start (modeOf rtf) max) rtf).flush decode).out :=
    (holds_convert keeps_safe (safe_of_begun .nil Inline.nil rfl)).2
  change match finish ((run decode (start (modeOf rtf) max) rtf).flush decode).out with
    | .rtf _ html => Markup html
    | _ => True
  generalize ((run decode (start (modeOf rtf) max) rtf).flush decode).out = o at hsafe
  unfold finish
  cases o.mode with
  | html => trivial
  | text => trivial
  | rtf =>
    have hend := safe_endLink hsafe
    dsimp only
    split
    · exact hend.html
    · have hclosed := hend.closed
      rw [endLink_inLink] at hclosed
      exact .div hend.html hclosed

end UwuMail.Tnef.Rtf
