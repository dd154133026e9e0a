/-
# Letter case

ASCII letters, all in lower case.  A character that is NO LETTER stands in the text where it stands
in the text in lower case, so a text that came through something that changes the case of letters is
cut at the same places (`lower_split`).
-/
import Mathlib

namespace UwuMail.Lib

def lower (text : List Char) : List Char := text.map Char.toLower

variable {a b text text' : List Char} {d : Char}

theorem toLower_cases (c : Char) :
    c.toLower = c ∨ ∃ n < 26, c = Char.ofNat (65 + n) ∧ c.toLower = Char.ofNat (97 + n) := by
  by_cases h : c.val ≥ 'A'.val ∧ c.val ≤ 'Z'.val
  · have hlo := UInt32.le_iff_toNat_le.1 h.1
    have hhi := UInt32.le_iff_toNat_le.1 h.2
    have ha : 'A'.val.toNat = 65 := rfl
    have hz : 'Z'.val.toNat = 90 := rfl
    have hc : c = Char.ofNat (65 + (c.toNat - 65)) := by
      rw [Nat.add_sub_cancel' (by change 65 ≤ c.val.toNat; omega), Char.ofNat_toNat]
    have hlt : c.toNat - 65 < 26 := by
      change c.val.toNat - 65 < 26
      omega
    have hall : ∀ n < 26, (Char.ofNat (65 + n)).toLower = Char.ofNat (97 + n) := by decide
    exact .inr ⟨_, hlt, hc, (congrArg Char.toLower hc).trans (hall _ hlt)⟩
  · left
    exact dif_neg h

/-- A kind of character that does not tell a letter in lower case from one in upper case. -/
theorem toLower_kind {β : Type} (kind : Char → β) (hall : ∀ n < 26, kind (Char.ofNat (97 + n)) =
    kind (Char.ofNat (65 + n)))
    (c : Char) : kind c.toLower = kind c := by
  obtain h | ⟨n, hn, hc, hlower⟩ := toLower_cases c
  · rw [h]
  · rw [hlower, hc, hall n hn]

theorem lower_append (a b : List Char) : lower (a ++ b) = lower a ++ lower b := List.map_append

/-- No letter. -/
def IsMark (d : Char) : Prop := ∀ n < 26, Char.ofNat (65 + n) ≠ d ∧ Char.ofNat (97 + n) ≠ d

theorem toLower_eq_iff (hd : IsMark d) (c : Char) : c.toLower = d ↔ c = d := by
  have h := toLower_kind (fun c => decide (c = d))
    (fun n hn => by rw [decide_eq_false (hd n hn).1, decide_eq_false (hd n hn).2]) c
  exact decide_eq_decide.1 h

theorem mem_lower_iff (hd : IsMark d) : d ∈ lower text ↔ d ∈ text := by
  unfold lower
  rw [List.mem_map]
  constructor
  · rintro ⟨c, hmem, hc⟩
    exact ((toLower_eq_iff hd c).1 hc) ▸ hmem
  · intro hmem
    exact ⟨d, hmem, (toLower_eq_iff hd d).2 rfl⟩

theorem mem_iff_of_lower (hd : IsMark d) (h : lower text = lower text') : d ∈ text ↔ d ∈ text' := by
  rw [← mem_lower_iff hd, h, mem_lower_iff hd]

theorem lower_split (hd : IsMark d) (h : lower text = lower (a ++ d :: b)) :
    ∃ a' b', text = a' ++ d :: b' ∧ lower a' = lower a ∧ lower b' = lower b := by
  rw [lower_append] at h
  obtain ⟨a', rest, rfl, ha, hrest⟩ := List.map_eq_append_iff.1 h
  obtain ⟨c, b', rfl, hc, hb⟩ := List.map_eq_cons_iff.1 hrest
  obtain rfl : c = d := (toLower_eq_iff hd c).1 (hc.trans ((toLower_eq_iff hd d).2 rfl))
  exact ⟨a', b', rfl, ha, hb⟩

end UwuMail.Lib
