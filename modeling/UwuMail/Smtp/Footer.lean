/-
# A footer is added once

`footer.rs` puts the footer of a domain below the text of a message, and skips a part that has it
already: one whose words have the footer's words in them.  **Every body it wrote has them**, plain
text and HTML alike, whatever the two texts hold, and with the line breaks at its end dropped or one
added, as the writer of the part does (`footers_once`).

The words of the footer need not be words of the body: in HTML the tags of the block around it are
glued to the first and the last.
-/
import UwuMail.Lib.Letters
import UwuMail.Lib.Words
import UwuMail.Store.Mutate

namespace UwuMail.Smtp.Footer

open Store (isWhitespace)

/-! ## 1. The source -/

abbrev Text := List Char

/-- Collapses whitespace, so a footer re-wrapped by a mail program is still recognised. -/
def squash (text : Text) : Text := Lib.squash isWhitespace ' ' text

/-- `replace("\r\n", "\n")`. -/
def joinBreaks : Text → Text
  | [] => []
  | [c] => [c]
  | c :: d :: rest => if c = '\r' ∧ d = '\n' then '\n' :: joinBreaks rest else c :: joinBreaks (d :: rest)

/-- `replace` of one character. -/
def replaceChar (c : Char) (new : Text) (text : Text) : Text :=
    text.flatMap fun x => if x = c then new else [x]

def crlf (text : Text) : Text := replaceChar '\n' ['\r', '\n'] (replaceChar '\r' ['\n'] (joinBreaks text))

def isBreak (c : Char) : Bool := c == '\r' || c == '\n'

/-- The plain text with the footer below it. -/
def plainWithFooter (body footer : Text) : Text :=
  (crlf body).rdropWhile isBreak ++ "\r\n\r\n".toList ++ (crlf footer).rdropWhile isBreak ++ "\r\n".toList

/-- `str::rfind`. -/
def rfind (needle : Text) : Text → Option Nat
  | [] => if needle = [] then some 0 else none
  | c :: rest => ((rfind needle rest).map (· + 1)).or (if needle.isPrefixOf (c :: rest) then some 0 else none)

def block (footer : Text) : Text := "<div class=\"uwumail-footer\">".toList ++ footer ++ "</div>".toList

/-- The HTML with the footer at the end of its body. -/
def htmlWithFooter (body footer : Text) : Text :=
  let lower := Lib.lower body
  crlf (match (rfind "</body".toList lower).or (rfind "</html".toList lower) with
    | some place => body.take place ++ block footer ++ body.drop place
    | none => body.rdropWhile isBreak ++ "\r\n".toList ++ block footer ++ "\r\n".toList)

/-- Whether a part has the footer. -/
def hasIt (text footer : Text) : Prop := squash footer <:+: squash text

/-- `while encoded.ends_with("\r\n")`, on the text from its end. -/
def truncate : Text → Text
  | '\n' :: '\r' :: rest => truncate rest
  | rest => rest

/-- The line break before the next boundary belongs to whichever side it was on. -/
def settle (ended : Bool) (body : Text) : Text :=
  if !ended then (truncate body.reverse).reverse
  else if ['\r', '\n'] <:+ body then body
  else body ++ ['\r', '\n']

/-! ## 2. White space -/

section
variable {body footer text u v : Text}

theorem isWhitespace_of_isBreak {c : Char} (h : isBreak c = true) : isWhitespace c = true := by
  unfold isBreak at h
  rw [Bool.or_eq_true, beq_iff_eq, beq_iff_eq] at h
  rcases h with rfl | rfl <;> rfl

theorem squash_append_breaks (h : ∀ c ∈ u, isBreak c = true) : squash (text ++ u) = squash text := by
  unfold squash Lib.squash
  rw [Lib.words_append_breaks fun c hc => isWhitespace_of_isBreak (h c hc)]

theorem squash_rdropWhile (text : Text) : squash (text.rdropWhile isBreak) = squash text := by
  have hbreaks : ∀ c ∈ text.rtakeWhile isBreak, isBreak c = true := fun c hc => List.mem_rtakeWhile_imp hc
  have hsplit := @squash_append_breaks (text.rdropWhile isBreak) _ hbreaks
  rw [List.rdropWhile_append_rtakeWhile] at hsplit
  exact hsplit.symm

theorem sameWords_joinBreaks (text : Text) : Lib.SameWords isWhitespace text (joinBreaks text) := by
  fun_induction joinBreaks text with
  | case1 => exact .nil
  | case2 c => exact .cons c .nil
  | case3 c d rest h ih =>
    obtain ⟨rfl, rfl⟩ := h
    exact .breaks (u := ['\r', '\n']) (v := ['\n']) nofun nofun (List.all_eq_true.1 rfl) ih
  | case4 c d rest h ih => exact .cons c ih

theorem sameWords_replaceChar {c : Char} (hc : isWhitespace c = true) (hne : u ≠ [])
    (hall : ∀ x ∈ u, isWhitespace x = true) (text : Text) :
    Lib.SameWords isWhitespace text (replaceChar c u text) := by
  refine Lib.sameWords_flatMap (fun x => ?_) text
  split
  · next h => exact .inr ⟨h ▸ hc, hne, hall⟩
  · exact .inl rfl

/-- **Line breaks are white space**, however they are written. -/
theorem squash_crlf (text : Text) : squash (crlf text) = squash text := by
  unfold squash Lib.squash crlf
  rw [← (sameWords_replaceChar rfl (List.cons_ne_nil _ _) (List.all_eq_true.1 rfl) _).words_eq,
    ← (sameWords_replaceChar rfl (List.cons_ne_nil _ _) (List.all_eq_true.1 rfl) _).words_eq,
      ← (sameWords_joinBreaks text).words_eq]

theorem hasIt_around (u footer v : Text) : hasIt (u ++ footer ++ v) footer := Lib.squash_infix u footer v

theorem hasIt_congr (h : squash text = squash u) : hasIt text footer ↔ hasIt u footer := by
  unfold hasIt
  rw [h]

/-! ## 3. The two kinds of body -/

theorem hasIt_plainWithFooter (body footer : Text) : hasIt (plainWithFooter body footer) footer := by
  have haround := hasIt_around ((crlf body).rdropWhile isBreak ++ "\r\n\r\n".toList)
    ((crlf footer).rdropWhile isBreak)
    "\r\n".toList
  unfold hasIt at haround ⊢
  rw [squash_rdropWhile, squash_crlf] at haround
  exact haround

theorem hasIt_block (u footer v : Text) : hasIt (u ++ block footer ++ v) footer := by
  unfold block
  have haround := hasIt_around (u ++ "<div class=\"uwumail-footer\">".toList) footer ("</div>".toList ++ v)
  simpa only [List.append_assoc] using haround

theorem hasIt_htmlWithFooter (body footer : Text) : hasIt (htmlWithFooter body footer) footer := by
  unfold htmlWithFooter
  rw [hasIt_congr (squash_crlf _)]
  split
  · exact hasIt_block _ _ _
  · exact hasIt_block _ _ _

/-! ## 4. What is written of it -/

theorem exists_truncate (rest : Text) : ∃ u, rest = u ++ truncate rest ∧ ∀ c ∈ u, isBreak c = true := by
  fun_induction truncate rest with
  | case1 rest ih =>
    obtain ⟨u, heq, hall⟩ := ih
    refine ⟨'\n' :: '\r' :: u, by rw [List.cons_append, List.cons_append, ← heq], ?_⟩
    rw [List.forall_mem_cons, List.forall_mem_cons]
    exact ⟨rfl, rfl, hall⟩
  | case2 rest => exact ⟨[], rfl, fun _ hc => nomatch hc⟩

theorem squash_settle (ended : Bool) (body : Text) : squash (settle ended body) = squash body := by
  unfold settle
  split
  · obtain ⟨u, heq, hall⟩ := exists_truncate body.reverse
    have hbody : body = (truncate body.reverse).reverse ++ u.reverse := by
      rw [← List.reverse_append, ← heq, List.reverse_reverse]
    conv_rhs => rw [hbody]
    exact (squash_append_breaks fun c hc => hall c (List.mem_reverse.1 hc)).symm
  · split
    · rfl
    · exact squash_append_breaks (List.all_eq_true.1 rfl)

end

/-- **A body that was given the footer has it**, and is left alone the next time. -/
theorem footers_once (body footer : Text) :
    hasIt (plainWithFooter body footer) footer ∧ hasIt (htmlWithFooter body footer) footer ∧
      ∀ ended, hasIt (settle ended (plainWithFooter body footer)) footer ∧
        hasIt (settle ended (htmlWithFooter body footer)) footer := by
  refine ⟨hasIt_plainWithFooter body footer, hasIt_htmlWithFooter body footer, fun ended => ⟨?_, ?_⟩⟩
  · exact (hasIt_congr (squash_settle ended _)).2 (hasIt_plainWithFooter body footer)
  · exact (hasIt_congr (squash_settle ended _)).2 (hasIt_htmlWithFooter body footer)

end UwuMail.Smtp.Footer
