/-
# The sender of forwarded mail

`srs.rs`: the envelope sender of forwarded mail becomes an address on one's own domain (`rewrite`),
and a bounce to that address goes to who sent it (`reverse`).

The day is part of the address, in two characters, so days are known MODULO 1024: an address is good
for 22 days, and for 22 days again 1024 days later.
-/
import UwuMail.Backup.Codec
import UwuMail.Lib.Letters
import UwuMail.Smtp.Policy

namespace UwuMail.Smtp.Srs

open Backup.Bytewise (hex hexDigit)
open Directory (rsplitOnce rsplitOnce_append)
open Lib (lower)
open Sts (splitOnce)

/-! ## 1. The source -/

/-- Bounces to a rewritten address are accepted this many days after the forward. -/
def maxAgeDays : Int := 21

def base32 : List Char := "abcdefghijklmnopqrstuvwxyz234567".toList

def dayTag (day : Int) : List Char :=
  let day := (day % 1024).toNat
  [base32.getD (day / 32) 'a', base32.getD (day % 32) 'a']

def value (c : Char) : Option Int := (base32.idxOf? c.toLower).map Int.ofNat

def dayFromTag (tag : List Char) (today : Int) : Option Int :=
  match tag with
  | [a, b] => do
    let tagged := (← value a) * 32 + (← value b)
    -- the tag wraps every 1024 days: the most recent day with it
    some (today - (today - tagged) % 1024)
  | _ => none

def today (now : Int) : Int := now / 86400

section
variable (hmac : List UInt8 → List Char → List UInt8) (secret : List UInt8)

/-- `hmac` is HMAC-SHA256 by key and data. -/
def hash (tag domain localPart : List Char) : List Char :=
  (hex ((hmac secret (lower (tag ++ '=' :: (domain ++ '=' :: localPart)))).take 4)).toList

/-- Rewrites `sender` for a forward from `ourDomain`.  Empty senders (bounces) stay empty. -/
def rewrite (sender ourDomain : List Char) (now : Int) : List Char :=
  match rsplitOnce '@' sender with
  | none => sender
  | some (localPart, domain) =>
    let tag := dayTag (today now)
    "SRS0".toList ++ '=' :: (hash hmac secret tag domain localPart ++ '=' :: (tag ++ '=' :: (domain ++ '=' ::
      (localPart ++ '@' :: ourDomain))))

def looksLikeSrs (address : List Char) : Bool := lower (address.take 5) == "srs0=".toList

/-- The original sender behind a rewritten address, if it is ours, intact and recent. -/
def reverse (address : List Char) (now : Int) : Option (List Char) := do
  let (localPart, _) ← rsplitOnce '@' address
  if looksLikeSrs localPart then
    let (hashPart, rest) ← splitOnce '=' (localPart.drop 5)
    let (tag, rest) ← splitOnce '=' rest
    let (domain, originalLocal) ← splitOnce '=' rest
    if originalLocal.isEmpty || domain.isEmpty then none
    else
      let day ← dayFromTag tag (today now)
      if hash hmac secret tag domain originalLocal = lower hashPart ∧ today now - day ≤ maxAgeDays then
        some (originalLocal ++ '@' :: domain)
      else none
  else none

end

/-! ## 2. Fields and days -/

section
variable {c : Char} {a b : List Char}

theorem splitOnce_append (h : c ∉ a) : splitOnce c (a ++ c :: b) = some (a, b) := by
  have hall : ∀ x ∈ a, (x != c) = true := fun x hx => bne_iff_ne.2 fun heq => h (heq ▸ hx)
  unfold splitOnce
  rw [if_pos (List.mem_append_right _ List.mem_cons_self), List.takeWhile_append_of_pos hall,
    List.dropWhile_append_of_pos hall]
  simp

theorem isMark_eq : Lib.IsMark '=' := by
  unfold Lib.IsMark
  decide

theorem isMark_at : Lib.IsMark '@' := by
  unfold Lib.IsMark
  decide

/-! ### Tags -/

theorem value_base32 : ∀ n < 32, value (base32.getD n 'a') = some (n : Int) := by decide

theorem value_congr {c c' : Char} (h : c.toLower = c'.toLower) : value c = value c' := by
  unfold value
  rw [h]

theorem mark_notMem_dayTag (day : Int) : '=' ∉ dayTag day := by
  have hall : ∀ n < 32, base32.getD n 'a' ≠ '=' := by decide
  have hlt : (day % 1024).toNat < 1024 := by omega
  intro hmem
  obtain hc | hmem := List.mem_cons.1 hmem
  · exact hall _ (by omega) hc.symm
  · exact hall _ (by omega) (List.mem_singleton.1 hmem).symm

/-- **A tag**, in any case, is read as the last day that has it. -/
theorem dayFromTag_dayTag {tag : List Char} {day today : Int} (h : lower tag = lower (dayTag day)) :
    dayFromTag tag today = some (today - (today - day) % 1024) := by
  obtain ⟨a, rest, rfl, ha, hrest⟩ := List.map_eq_cons_iff.1 h
  obtain ⟨b, rest, rfl, hb, hrest⟩ := List.map_eq_cons_iff.1 hrest
  obtain rfl := List.map_eq_nil_iff.1 hrest
  have hlt : (day % 1024).toNat < 1024 := by omega
  have hvalue : value a = some (((day % 1024).toNat / 32 : Nat) : Int) :=
    (value_congr ha).trans (value_base32 _ (by omega))
  have hvalue' : value b = some (((day % 1024).toNat % 32 : Nat) : Int) :=
    (value_congr hb).trans (value_base32 _ (by omega))
  have htagged : (((day % 1024).toNat / 32 : Nat) : Int) * 32 +
    (((day % 1024).toNat % 32 : Nat) : Int) = day % 1024 := by
    omega
  unfold dayFromTag
  simp only [hvalue, hvalue', Option.bind_eq_bind, Option.bind_some, htagged]
  have hsame : (today - day % 1024) % 1024 = (today - day) % 1024 := by omega
  rw [hsame]

end

/-! ### The hash -/

section
variable {hmac : List UInt8 → List Char → List UInt8} {secret : List UInt8}
  {tag tag' domain domain' localPart localPart' : List Char}

/-- A digit of the hash is none of the marks of an address, and in lower case. -/
theorem hexDigit_plain : ∀ n < 16, hexDigit n ≠ '=' ∧ hexDigit n ≠ '@' ∧
    (hexDigit n).toLower = hexDigit n := by decide

theorem hash_digits {c : Char} (hc : c ∈ hash hmac secret tag domain localPart) :
    ∃ n < 16, c = hexDigit n := by
  unfold hash hex at hc
  rw [String.toList_ofList] at hc
  obtain ⟨b, -, hb⟩ := List.mem_flatMap.1 hc
  have hlt := b.toNat_lt
  obtain rfl | hb := List.mem_cons.1 hb
  · exact ⟨_, by omega, rfl⟩
  · exact ⟨_, by omega, List.mem_singleton.1 hb⟩

theorem mark_notMem_hash : '=' ∉ hash hmac secret tag domain localPart := by
  intro hmem
  obtain ⟨n, hn, h⟩ := hash_digits hmem
  exact (hexDigit_plain n hn).1 h.symm

theorem lower_hash : lower (hash hmac secret tag domain localPart) =
    hash hmac secret tag domain localPart := by
  unfold lower
  conv_rhs => rw [← List.map_id (hash hmac secret tag domain localPart)]
  refine List.map_congr_left fun c hc => ?_
  obtain ⟨n, hn, rfl⟩ := hash_digits hc
  exact (hexDigit_plain n hn).2.2

/-- The hash does not tell letters in lower case from letters in upper case. -/
theorem hash_congr (htag : lower tag = lower tag') (hdomain : lower domain = lower domain')
    (hlocal : lower localPart = lower localPart') :
    hash hmac secret tag domain localPart = hash hmac secret tag' domain' localPart' := by
  have hcons (c : Char) (text : List Char) : lower (c :: text) = c.toLower :: lower text := rfl
  unfold hash
  rw [Lib.lower_append, hcons, Lib.lower_append, hcons, htag, hdomain, hlocal, ← hcons,
    ← Lib.lower_append, ← hcons,
    ← Lib.lower_append]

/-! ## 3. There and back -/

variable {sender ourDomain received : List Char} {now now' : Int}

theorem rewrite_eq (hdomain : '@' ∉ domain) (hsender : sender = localPart ++ '@' :: domain) :
    rewrite hmac secret sender ourDomain now = "SRS0".toList ++ '=' ::
      (hash hmac secret (dayTag (today now)) domain localPart ++
        '=' :: (dayTag (today now) ++ '=' :: (domain ++ '=' ::
        (localPart ++ '@' :: ourDomain)))) := by
  unfold rewrite
  rw [hsender, rsplitOnce_append hdomain]

theorem reverse_eq {srs hashPart ours : List Char} (hours : '@' ∉ ours) (hsrs : lower srs = "srs0".toList)
    (hhash : '=' ∉ hashPart) (htag : '=' ∉ tag) (hdomain : '=' ∉ domain) (hne : domain ≠ [])
      (hlocal : localPart ≠ []) :
    reverse hmac secret (srs ++ '=' :: (hashPart ++
      '=' :: (tag ++ '=' :: (domain ++ '=' :: (localPart ++ '@' :: ours))))) now =
      (dayFromTag tag (today now)).bind fun day =>
        if hash hmac secret tag domain localPart = lower hashPart ∧ today now - day ≤ maxAgeDays then
          some (localPart ++ '@' :: domain)
        else none := by
  have hlen : srs.length = 4 := by
    have h := congrArg List.length hsrs
    rwa [lower, List.length_map] at h
  have hassoc : srs ++ '=' :: (hashPart ++ '=' :: (tag ++ '=' :: (domain ++ '=' :: (localPart ++ '@' :: ours)))) =
      (srs ++ '=' :: (hashPart ++ '=' :: (tag ++ '=' :: (domain ++ '=' :: localPart)))) ++
        '@' :: ours := by simp
  have htake (rest : List Char) : (srs ++ '=' :: rest).take 5 = srs ++ ['='] := by
    rw [List.take_append, hlen, List.take_of_length_le (by omega)]
    rfl
  have hdrop (rest : List Char) : (srs ++ '=' :: rest).drop 5 = rest := by
    rw [List.drop_append, hlen, List.drop_of_length_le (by omega)]
    rfl
  have hlooks (rest : List Char) : looksLikeSrs (srs ++ '=' :: rest) = true := by
    unfold looksLikeSrs
    rw [htake, Lib.lower_append, hsrs]
    decide
  unfold reverse
  rw [hassoc, rsplitOnce_append hours]
  dsimp only [Option.bind_eq_bind, Option.bind_some]
  rw [hlooks, if_pos rfl, hdrop, splitOnce_append hhash]
  dsimp only [Option.bind_some]
  rw [splitOnce_append htag]
  dsimp only [Option.bind_some]
  rw [splitOnce_append hdomain]
  dsimp only [Option.bind_some]
  rw [List.isEmpty_eq_false_iff.2 hlocal, List.isEmpty_eq_false_iff.2 hne]
  rfl

/-- **There and back.**  A rewritten address, whatever case its letters came to on the way, gives
the sender for 22 days, and again every 1024 days.  Two senders are never rewritten to the same
address. -/
theorem srs_round_trip (hsender : sender = localPart ++ '@' :: domain) (hat : '@' ∉ domain)
    (hlocal : localPart ≠ [])
    (hne : domain ≠ []) (hmark : '=' ∉ domain) (hours : '@' ∉ ourDomain) :
    (∀ now', reverse hmac secret (rewrite hmac secret sender ourDomain now) now' =
      if (today now' - today now) % 1024 ≤ maxAgeDays then some sender else none) ∧
    (∀ received, lower received = lower (rewrite hmac secret sender ourDomain now) →
      ∃ back, lower back = lower sender ∧
      ∀ now', reverse hmac secret received now' =
        if (today now' - today now) % 1024 ≤ maxAgeDays then some back else none) ∧
    ∀ sender' localPart' domain', sender' = localPart' ++ '@' :: domain' → '@' ∉ domain' → '=' ∉ domain' →
      ∀ now', rewrite hmac secret sender' ourDomain now' =
        rewrite hmac secret sender ourDomain now → sender' = sender := by
  have hage (now' : Int) : today now' - (today now' - (today now' - today now) % 1024) =
    (today now' - today now) % 1024 := by
    omega
  have hours' {ours : List Char} (h : lower ours = lower ourDomain) : '@' ∉ ours :=
    (Lib.mem_iff_of_lower isMark_at h).not.2 hours
  refine ⟨fun now' => ?_, fun received hreceived => ?_,
    fun sender' localPart' domain' hsender' hat' hmark' now' heq => ?_⟩
  · rw [rewrite_eq hat hsender, reverse_eq hours (by decide) mark_notMem_hash (mark_notMem_dayTag _) hmark hne hlocal,
      dayFromTag_dayTag rfl, Option.bind_some, hage, lower_hash, hsender]
    simp only [true_and]
  · rw [rewrite_eq hat hsender] at hreceived
    obtain ⟨srs, rest, rfl, hsrs, hrest⟩ := Lib.lower_split isMark_eq hreceived
    obtain ⟨hashPart, rest, rfl, hhash, hrest⟩ := Lib.lower_split isMark_eq hrest
    obtain ⟨tag, rest, rfl, htag, hrest⟩ := Lib.lower_split isMark_eq hrest
    obtain ⟨domain', rest, rfl, hdomain, hrest⟩ := Lib.lower_split isMark_eq hrest
    obtain ⟨localPart', ours, rfl, hpart, hends⟩ := Lib.lower_split isMark_at hrest
    have hnil {a b : List Char} (h : lower a = lower b) (hb : b ≠ []) : a ≠ [] := by
      rintro rfl
      exact hb (List.map_eq_nil_iff.1 h.symm)
    refine ⟨localPart' ++ '@' :: domain', ?_, fun now' => ?_⟩
    · have hcons (c : Char) (text : List Char) : lower (c :: text) = c.toLower :: lower text := rfl
      rw [hsender, Lib.lower_append, Lib.lower_append, hcons, hcons, hpart, hdomain]
    · rw [reverse_eq (hours' hends) (hsrs.trans (by decide))
        ((Lib.mem_iff_of_lower isMark_eq hhash).not.2 mark_notMem_hash)
          ((Lib.mem_iff_of_lower isMark_eq htag).not.2 (mark_notMem_dayTag _))
          ((Lib.mem_iff_of_lower isMark_eq hdomain).not.2 hmark) (hnil hdomain hne) (hnil hpart hlocal),
        dayFromTag_dayTag htag, Option.bind_some, hage, hash_congr htag hdomain hpart, hhash, lower_hash]
      simp only [true_and]
  · rw [rewrite_eq hat hsender, rewrite_eq hat' hsender'] at heq
    -- the three fields before the address hold no mark of their own
    have hcut {a a' b b' : List Char} (ha : '=' ∉ a) (ha' : '=' ∉ a') (h : a ++ '=' :: b = a' ++
      '=' :: b') : a = a' ∧ b = b' := by
      have h := congrArg (splitOnce '=') h
      rw [splitOnce_append ha, splitOnce_append ha'] at h
      exact Prod.mk.inj (Option.some.inj h)
    have h := (hcut (by decide) (by decide) heq).2
    have h := (hcut mark_notMem_hash mark_notMem_hash h).2
    have h := (hcut (mark_notMem_dayTag _) (mark_notMem_dayTag _) h).2
    obtain ⟨rfl, hrest⟩ := hcut hmark' hmark h
    have hends := congrArg (rsplitOnce '@') hrest
    rw [rsplitOnce_append hours, rsplitOnce_append hours] at hends
    obtain ⟨rfl, -⟩ := Prod.mk.inj (Option.some.inj hends)
    rw [hsender, hsender']

end

/-- The secret of the server. -/
def testSecret : List UInt8 := "a test secret that is long enough".toList.map fun c => c.toNat.toUInt8

/-- HMAC-SHA256 of `aa=example.net=oma` with it. -/
def testHmac (_ : List UInt8) (_ : List Char) : List UInt8 :=
  [205, 235, 2, 4, 190, 106, 31, 55, 142, 20, 81, 225, 220, 108, 233, 161, 135, 32, 155, 90, 87,
    161, 177, 68, 125, 230, 100, 229, 238, 217, 228, 108]

def oma : List Char := "oma@example.net".toList
def ours : List Char := "example.org".toList

theorem srs_round_trip_oma :
    reverse testHmac testSecret (rewrite testHmac testSecret oma ours 0) (21 * 86400) = some oma :=
  ((@srs_round_trip testHmac testSecret "example.net".toList "oma".toList oma ours 0 rfl (by decide) (by decide)
    (by decide) (by decide) (by decide)).1 (21 * 86400)).trans (if_pos (by decide))

/-- **After 1024 days the address is good again**, and a sender with no domain never comes back. -/
theorem tag_wraps :
    reverse testHmac testSecret (rewrite testHmac testSecret oma ours 0) (1024 * 86400) = some oma ∧
      reverse testHmac testSecret (rewrite testHmac testSecret "oma@".toList ours 0) 0 = none := by
  decide

end UwuMail.Smtp.Srs
