/-
# Text between quotation marks

A separator counts only OUTSIDE of quotation marks, and a mark opens or closes.  So what a text does
to what follows it is one bit, whether its marks are odd in number, and where a text splits is a
matter of that bit at each separator.  `cut_eq_some` says it: the text is split where the part
before holds no bare separator and leaves no quotation open.
-/
import Mathlib.Data.List.Basic

namespace UwuMail.Lib.Quoting

variable {α : Type} [DecidableEq α] {quote stop : α} {quoted : Bool} {text text' a b : List α}
  {c : α}

/-- Whether what follows a character is quoted. -/
def next (quote : α) (quoted : Bool) (c : α) : Bool := if c = quote then !quoted else quoted

/-- Whether what follows a text is quoted. -/
def after (quote : α) (quoted : Bool) : List α → Bool
  | [] => quoted
  | c :: text => after quote (next quote quoted c) text

/-- Every `stop` of the text stands between quotation marks. -/
def Clear (quote stop : α) (quoted : Bool) : List α → Prop
  | [] => True
  | c :: text => (c = stop → quoted = true) ∧ Clear quote stop (next quote quoted c) text

/-- What stands before the first bare `stop`, and what after it. -/
def cut (quote stop : α) (quoted : Bool) : List α → Option (List α × List α)
  | [] => none
  | c :: text =>
    if c = stop ∧ quoted = false then some ([], text)
    else (cut quote stop (next quote quoted c) text).map fun parts => (c :: parts.1, parts.2)

@[simp] theorem next_quote : next quote quoted quote = !quoted := if_pos rfl

theorem next_ne (h : c ≠ quote) : next quote quoted c = quoted := if_neg h

/-! ## 1. The bit -/

@[simp] theorem after_nil : after quote quoted [] = quoted := rfl

@[simp] theorem after_cons : after quote quoted (c :: text) = after quote (next quote quoted c) text := rfl

@[simp] theorem after_append : after quote quoted (text ++ text') =
    after quote (after quote quoted text) text' := by
  induction text generalizing quoted with
  | nil => rfl
  | cons c text ih => exact ih

theorem after_plain (h : quote ∉ text) : after quote quoted text = quoted := by
  induction text with
  | nil => rfl
  | cons c text ih =>
    rw [List.mem_cons, not_or] at h
    rw [after_cons, next_ne (Ne.symm h.1), ih h.2]

/-- Another spelling of the text that has the same quotation marks. -/
theorem after_map {f : α → α} (h : ∀ c, f c = quote ↔ c = quote) : after quote quoted (text.map f) =
    after quote quoted text := by
  induction text generalizing quoted with
  | nil => rfl
  | cons c text ih =>
    rw [List.map_cons, after_cons, after_cons, ih]
    unfold next
    simp only [h]

/-! ## 2. No bare separator -/

@[simp] theorem clear_cons : Clear quote stop quoted (c :: text) ↔
    (c = stop → quoted = true) ∧ Clear quote stop (next quote quoted c) text := Iff.rfl

@[simp] theorem clear_append : Clear quote stop quoted (text ++ text') ↔
    Clear quote stop quoted text ∧ Clear quote stop (after quote quoted text) text' := by
  induction text generalizing quoted with
  | nil => exact (and_iff_right trivial).symm
  | cons c text ih => rw [List.cons_append, clear_cons, clear_cons, ih, after_cons, and_assoc]

theorem clear_of_notMem (h : stop ∉ text) : Clear quote stop quoted text := by
  induction text generalizing quoted with
  | nil => exact trivial
  | cons c text ih =>
    rw [List.mem_cons, not_or] at h
    exact ⟨fun heq => absurd heq.symm h.1, ih h.2⟩

/-- Without a quotation mark the bit is the same all over the text. -/
theorem clear_plain (h : quote ∉ text) : Clear quote stop quoted text ↔ (stop ∈ text → quoted = true) := by
  induction text with
  | nil => exact iff_of_true trivial fun h => absurd h List.not_mem_nil
  | cons c text ih =>
    rw [List.mem_cons, not_or] at h
    rw [clear_cons, next_ne (Ne.symm h.1), ih h.2, List.mem_cons]
    constructor
    · rintro ⟨hc, htext⟩ (rfl | hmem)
      · exact hc rfl
      · exact htext hmem
    · intro hall
      exact ⟨fun heq => hall (.inl heq.symm), fun hmem => hall (.inr hmem)⟩

theorem clear_map {f : α → α} (h : ∀ c, f c = quote ↔ c = quote) (h' : ∀ c, f c = stop ↔ c = stop) :
    Clear quote stop quoted (text.map f) ↔ Clear quote stop quoted text := by
  induction text generalizing quoted with
  | nil => exact Iff.rfl
  | cons c text ih =>
    rw [List.map_cons, clear_cons, clear_cons, ih, h']
    unfold next
    simp only [h]

/-! ## 3. The split -/

theorem cut_eq_none : cut quote stop quoted text = none ↔ Clear quote stop quoted text := by
  induction text generalizing quoted with
  | nil => exact iff_of_true rfl trivial
  | cons c text ih =>
    unfold cut
    split
    next h =>
      refine iff_of_false (Option.some_ne_none _) fun hclear => ?_
      exact absurd (hclear.1 h.1) (by rw [h.2]; exact Bool.false_ne_true)
    next h =>
      rw [Option.map_eq_none_iff, ih, clear_cons]
      refine (and_iff_right fun hc => ?_).symm
      cases quoted with
      | false => exact absurd ⟨hc, rfl⟩ h
      | true => rfl

/-- **Where a text splits.** -/
theorem cut_eq_some : cut quote stop quoted text = some (a, b) ↔
    text = a ++ stop :: b ∧ Clear quote stop quoted a ∧ after quote quoted a = false := by
  induction text generalizing quoted a with
  | nil => exact iff_of_false (fun h => nomatch h) fun h => absurd h.1.symm (by simp)
  | cons c text ih =>
    unfold cut
    split
    next h =>
      obtain ⟨rfl, rfl⟩ := h
      constructor
      · rintro ⟨⟩
        exact ⟨rfl, trivial, rfl⟩
      · rintro ⟨heq, hclear, -⟩
        cases a with
        | nil =>
          cases heq
          rfl
        | cons c' a =>
          rw [List.cons_append, List.cons.injEq] at heq
          exact absurd (hclear.1 heq.1.symm) Bool.false_ne_true
    next h =>
      rw [Option.map_eq_some_iff]
      constructor
      · rintro ⟨⟨a', b'⟩, hcut, heq⟩
        cases heq
        obtain ⟨rfl, hclear, hafter⟩ := ih.1 hcut
        refine ⟨rfl, ⟨fun hc => ?_, hclear⟩, hafter⟩
        cases quoted with
        | false => exact absurd ⟨hc, rfl⟩ h
        | true => rfl
      · rintro ⟨heq, hclear, hafter⟩
        cases a with
        | nil =>
          rw [List.nil_append, List.cons.injEq] at heq
          exact absurd ⟨heq.1, hafter⟩ h
        | cons c' a =>
          rw [List.cons_append, List.cons.injEq] at heq
          obtain ⟨rfl, rfl⟩ := heq
          exact ⟨(a, b), ih.2 ⟨rfl, hclear.2, hafter⟩, rfl⟩

theorem cut_append (hclear : Clear quote stop quoted a) (hafter : after quote quoted a = false) :
    cut quote stop quoted (a ++ stop :: b) = some (a, b) :=
  cut_eq_some.2 ⟨rfl, hclear, hafter⟩

end UwuMail.Lib.Quoting
