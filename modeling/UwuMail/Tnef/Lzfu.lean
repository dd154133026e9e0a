/-
# Compressed RTF

`rtf.rs`, `decompress` and `compress` (MS-OXRTFCP): literal bytes and references into a dictionary
of the last 4096 bytes, eight of them after each control byte, and at the end a reference to WHERE
THE NEXT BYTE WOULD GO.

A read or a write outside of the input or the dictionary would be a panic.  It is `none` here:
`decompress_bounds` says there is none, whatever the input.

* §3: `compress` writes what `decompress` reads, as long as the sizes fit into the 32 bits the
  header has for them.
-/
import Mathlib
import UwuMail.Lib.Window

namespace UwuMail.Tnef

open Lib (Window)

/-! ## 1. The source -/

abbrev Bytes := List UInt8

def ascii (text : String) : Bytes := text.toList.map fun c => c.toNat.toUInt8

/-- The dictionary compressed RTF starts with (MS-OXRTFCP 2.1.2.1), 207 bytes. -/
def prebuf : Bytes := ascii
  ("\x7b\\rtf1\\ansi\\mac\\deff0\\deftab720\x7b\\fonttbl;\x7d\x7b\\f0\\fnil \\froman \\fswiss \\fmodern \\fscript " ++
    "\\fdecor MS Sans SerifSymbolArialTimes New RomanCourier\x7b\\colortbl\\red0\\green0\\blue0\r\n" ++
    "\\par \\pard\\plain\\f0\\fs20\\b\\i\\u\\tab\\tx")

def dictSize : Nat := 4096
def lzfu : Nat := 0x75465A4C
def mela : Nat := 0x414C454D

/-- Why compressed RTF could not be read. -/
inductive RtfError where
  | malformed
  | tooLarge

/-- The dictionary before the first byte. -/
def startWindow : Window UInt8 := ⟨prebuf ++ List.replicate (dictSize - prebuf.length) 0, prebuf.length⟩

/-- `u32::from_le_bytes` of the four bytes at `i`. -/
def word (data : Bytes) (i : Nat) : Option Nat := do
  let a ← data[i]?
  let b ← data[i + 1]?
  let c ← data[i + 2]?
  let d ← data[i + 3]?
  some (a.toNat + 256 * (b.toNat + 256 * (c.toNat + 256 * d.toNat)))

/-- `&data[from..to]` -/
def slice (data : Bytes) (start stop : Nat) : Option Bytes :=
  if start ≤ stop ∧ stop ≤ data.length then some ((data.take stop).drop start) else none

/-- What was unpacked, and the dictionary. -/
structure Unpacking where
  window : Window UInt8
  out : Bytes

/-- One turn of the loop over the bits of a control byte: a literal byte, or a reference.  `some
none` is `break`. -/
def unpackToken : Bool → Bytes → Unpacking → Option (Option (Bytes × Unpacking))
  | false, byte :: input, s => do
    let window ← s.window.put? dictSize byte
    some (some (input, ⟨window, s.out ++ [byte]⟩))
  | true, hi :: lo :: input, s =>
    let reference := 256 * hi.toNat + lo.toNat
    if reference / 16 = s.window.write then some none
    else do
      let (bytes, window) ← s.window.copy dictSize (reference / 16) 0 (reference % 16 + 2)
      some (some (input, ⟨window, s.out ++ bytes⟩))
  | _, _, _ => some none

/-- The loop over the bits: the end of all, or what is left of the input. -/
def unpackBits (max control : Nat) : List Nat → Bytes → Unpacking →
    Option (Except RtfError Bytes ⊕ Bytes × Unpacking)
  | [], input, s => some (.inr (input, s))
  | bit :: bits, input, s => do
    match ← unpackToken (control.testBit bit) input s with
    | none => some (.inl (.ok s.out))
    | some (input, s) =>
      if s.out.length > max then some (.inl (.error .tooLarge)) else unpackBits max control bits input s

theorem length_unpackToken {isReference : Bool} {input input' : Bytes} {s s' : Unpacking}
    (h : unpackToken isReference input s = some (some (input', s'))) : input'.length ≤ input.length := by
  unfold unpackToken at h
  split at h
  · obtain ⟨window, -, h⟩ := Option.bind_eq_some_iff.1 h
    cases h
    exact Nat.le_succ _
  · dsimp only at h
    split at h
    · cases h
    · obtain ⟨⟨bytes, window⟩, -, h⟩ := Option.bind_eq_some_iff.1 h
      cases h
      exact (Nat.le_succ _).trans (Nat.le_succ _)
  · cases h

variable {bits : List Nat}

theorem length_unpackBits {max control : Nat} {input input' : Bytes} {s s' : Unpacking}
    (h : unpackBits max control bits input s = some (.inr (input', s'))) : input'.length ≤ input.length := by
  induction bits generalizing input s with
  | nil =>
    cases h
    exact Nat.le_refl _
  | cons bit bits ih =>
    obtain ⟨token, htoken, h⟩ := Option.bind_eq_some_iff.1 h
    cases token with
    | none => cases h
    | some next =>
      obtain ⟨input'', s''⟩ := next
      dsimp only at h
      split at h
      · cases h
      · exact (ih h).trans (length_unpackToken htoken)

/-- The loop over the control bytes. -/
def unpack (max : Nat) (input : Bytes) (s : Unpacking) : Option (Except RtfError Bytes) :=
  match input with
  | [] => some (.ok s.out)
  | control :: input =>
    match _h : unpackBits max control.toNat (List.range 8) input s with
    | none => none
    | some (.inl result) => some result
    | some (.inr (input', s')) => unpack max input' s'
termination_by input.length
decreasing_by
  have := length_unpackBits ‹_›
  rw [List.length_cons]
  omega

/-- Unpacks compressed RTF to at most `max` bytes.  `none` is a panic. -/
def decompress (data : Bytes) (max : Nat) : Option (Except RtfError Bytes) :=
  if data.length < 16 then some (.error .malformed)
  else do
    let compSize ← word data 0
    let rawSize ← word data 4
    let magic ← word data 8
    let stop := Nat.max (min (compSize + 4) data.length) 16
    let body ← slice data 16 stop
    if magic = mela then
      let n := min rawSize body.length
      if n > max then some (.error .tooLarge)
      else do
        let bytes ← slice body 0 n
        some (.ok bytes)
    else if magic ≠ lzfu then some (.error .malformed)
    else unpack max body ⟨startWindow, []⟩

/-- The dictionary, and how much of it holds something. -/
structure Packing where
  window : Window UInt8
  filled : Nat

def Packing.advance (s : Packing) (bytes : Bytes) : Packing :=
  ⟨s.window.putAll dictSize bytes, bytes.foldl (fun filled _ => min (filled + 1) dictSize) s.filled⟩

/-- How many bytes from `offset + k` on are those of the input, at most `limit`. -/
def matchLen (window : Window UInt8) (offset : Nat) : Nat → Nat → Bytes → Nat
  | _, 0, _ => 0
  | _, _ + 1, [] => 0
  | k, limit + 1, byte :: rest =>
    if window.get? dictSize (offset + k) = some byte then matchLen window offset (k + 1) limit rest + 1 else 0

/-- The longest earlier run (2–17 bytes) that does not overlap what it writes. -/
def longest (s : Packing) (rest : Bytes) : Nat × Nat :=
  let maxLen := min rest.length 17
  if maxLen ≥ 2 then
    (List.range' 1 (min s.filled 4095 - 1)).foldl (fun best back =>
      let offset := (s.window.write + dictSize - back) % dictSize
      let len := matchLen s.window offset 0 (min maxLen back) rest
      if len > best.2 ∧ offset ≠ s.window.write then (offset, len) else best) (0, 0)
  else (0, 0)

def toBe16 (n : Nat) : Bytes := [(n / 256).toUInt8, n.toUInt8]

/-- Eight tokens and their control byte, what is left of the input, and whether the end was
written. -/
structure Chunk where
  control : Nat
  bytes : Bytes
  after : Packing
  rest : Bytes
  done : Bool

def packBits : List Nat → Packing → Bytes → Chunk
  | [], s, rest => ⟨0, [], s, rest, false⟩
  | bit :: _, s, [] => ⟨2 ^ bit, toBe16 (16 * s.window.write), s, [], true⟩
  | bit :: bits, s, byte :: rest =>
    let best := longest s (byte :: rest)
    if best.2 ≥ 2 then
      let chunk := packBits bits (s.advance ((byte :: rest).take best.2)) ((byte :: rest).drop best.2)
      { chunk with
        control := 2 ^ bit ||| chunk.control
        bytes := toBe16 (16 * best.1 ||| (best.2 - 2)) ++ chunk.bytes }
    else
      let chunk := packBits bits (s.advance [byte]) rest
      { chunk with bytes := byte :: chunk.bytes }

theorem length_packBits {s : Packing} {rest : Bytes} (h : (packBits bits s rest).done = false) :
    (packBits bits s rest).rest.length + bits.length ≤ rest.length := by
  induction bits generalizing s rest with
  | nil => exact Nat.le_refl _
  | cons bit bits ih =>
    cases rest with
    | nil => cases h
    | cons byte rest =>
      rw [packBits] at h ⊢
      split at h
      · next hbest =>
        rw [if_pos hbest]
        have := ih h
        rw [List.length_drop] at this
        simp only [List.length_cons] at this ⊢
        omega
      · next hbest =>
        rw [if_neg hbest]
        have := ih h
        simp only [List.length_cons] at this ⊢
        omega

/-- The chunks. -/
def packBody (s : Packing) (rest : Bytes) : Bytes :=
  let chunk := packBits (List.range 8) s rest
  if _h : chunk.done = true then chunk.control.toUInt8 :: chunk.bytes
  else chunk.control.toUInt8 :: chunk.bytes ++ packBody chunk.after chunk.rest
termination_by rest.length
decreasing_by
  have hlen := length_packBits (Bool.eq_false_iff.2 ‹_›)
  cases rest with
  | nil => exact absurd rfl ‹_›
  | cons byte rest =>
    simp only [List.length_cons, List.length_range] at hlen ⊢
    omega

def startPacking : Packing := ⟨startWindow, prebuf.length⟩

def toLe32 (n : Nat) : Bytes := [n.toUInt8, (n / 256).toUInt8, (n / 65536).toUInt8, (n / 16777216).toUInt8]

/-- One bit of the CRC. -/
def crcBit (crc : UInt32) : UInt32 := if crc &&& 1 ≠ 0 then (crc >>> 1) ^^^ 0xEDB88320 else crc >>> 1

/-- The CRC of MS-OXRTFCP (CRC-32 without the final inversion, starting at 0). -/
def crc32 (data : Bytes) : UInt32 := data.foldl (fun crc byte => crcBit^[8] (crc ^^^ byte.toUInt32)) 0

/-- Packs RTF the way Outlook does (`LZFu`), with a simple search for repeats. -/
def compress (rtf : Bytes) : Bytes :=
  let body := packBody startPacking rtf
  toLe32 (body.length + 12) ++ toLe32 rtf.length ++ toLe32 lzfu ++ toLe32 (crc32 body).toNat ++ body

/-! ## 2. What comes out -/

section
variable {isReference : Bool} {input : Bytes} {s : Unpacking} {max control : Nat} {bits : List Nat}

theorem sound_startWindow : startWindow.Sound dictSize := by
  have hlt : prebuf.length < dictSize := by decide +kernel
  exact .filled hlt 0

/-- **One token** reads and writes inside of the dictionary, and makes at most 17 bytes of a
byte. -/
theorem unpackToken_sound (h : s.window.Sound dictSize) :
    ∃ result, unpackToken isReference input s = some result ∧
    ∀ input' s', result = some (input', s') → s'.window.Sound dictSize ∧
      s'.out.length + 17 * input'.length ≤ s.out.length + 17 * input.length := by
  unfold unpackToken
  split
  · next byte input =>
    rw [h.put?_eq]
    refine ⟨_, rfl, fun input' s' heq => ?_⟩
    cases heq
    refine ⟨h.put byte, ?_⟩
    rw [List.length_append, List.length_singleton, List.length_cons]
    omega
  · next hi lo input =>
    dsimp only
    split
    · exact ⟨_, rfl, fun _ _ heq => nomatch heq⟩
    · obtain ⟨l, w, hcopy, hlen, hw⟩ := h.copy ((256 * hi.toNat + lo.toNat) / 16) 0
        ((256 * hi.toNat + lo.toNat) % 16 + 2)
      rw [hcopy]
      refine ⟨_, rfl, fun input' s' heq => ?_⟩
      cases heq
      refine ⟨hw, ?_⟩
      rw [List.length_append, hlen, List.length_cons, List.length_cons]
      omega
  · exact ⟨_, rfl, fun _ _ heq => nomatch heq⟩

/-- What a loop may end with: a body that is not too long, ... -/
def Within (max : Nat) (input : Bytes) (s : Unpacking) (result : Except RtfError Bytes) : Prop :=
  ∀ out, result = .ok out → out.length ≤ max ∧ out.length ≤ s.out.length + 17 * input.length

/-- ... or what to go on with. -/
def GoesOn (max : Nat) (input : Bytes) (s : Unpacking) (next : Bytes × Unpacking) : Prop :=
  next.2.window.Sound dictSize ∧ next.2.out.length ≤ max ∧
    next.2.out.length + 17 * next.1.length ≤ s.out.length + 17 * input.length

theorem unpackBits_sound (h : s.window.Sound dictSize) (hout : s.out.length ≤ max) :
    ∃ result, unpackBits max control bits input s = some result ∧
      (∀ end', result = .inl end' → Within max input s end') ∧ ∀ next, result = .inr next →
        GoesOn max input s next := by
  induction bits generalizing input s with
  | nil =>
    refine ⟨_, rfl, fun _ heq => (nomatch heq), fun next heq => ?_⟩
    cases heq
    exact ⟨h, hout, Nat.le_refl _⟩
  | cons bit bits ih =>
    obtain ⟨token, htoken, hnext⟩ := @unpackToken_sound (control.testBit bit) input s h
    rw [unpackBits, htoken]
    cases token with
    | none =>
      refine ⟨_, rfl, fun end' heq => ?_, fun _ heq => nomatch heq⟩
      cases heq
      intro out heq
      cases heq
      exact ⟨hout, Nat.le_add_right _ _⟩
    | some next =>
      obtain ⟨input', s'⟩ := next
      obtain ⟨hsound, hlen⟩ := hnext input' s' rfl
      dsimp only [Option.bind_eq_bind, Option.bind_some]
      split
      · refine ⟨_, rfl, fun end' heq => ?_, fun _ heq => nomatch heq⟩
        cases heq
        exact fun _ heq => nomatch heq
      · next hmax =>
        obtain ⟨result, hresult, hend, hgoes⟩ := @ih input' s' hsound (Nat.le_of_not_lt hmax)
        refine ⟨result, hresult, fun end' heq out hok => ?_, fun next heq => ?_⟩
        · obtain ⟨hle, hle'⟩ := hend end' heq out hok
          exact ⟨hle, by omega⟩
        · obtain ⟨hw, hle, hle'⟩ := hgoes next heq
          exact ⟨hw, hle, by omega⟩

theorem unpack_sound (h : s.window.Sound dictSize) (hout : s.out.length ≤ max) :
    ∃ result, unpack max input s = some result ∧ Within max input s result := by
  induction hn : input.length using Nat.strong_induction_on generalizing input s with
  | _ n ih =>
    cases input with
    | nil =>
      rw [unpack]
      refine ⟨_, rfl, fun out heq => ?_⟩
      cases heq
      exact ⟨hout, Nat.le_add_right _ _⟩
    | cons byte input =>
      rw [List.length_cons] at hn
      obtain ⟨result, hresult, hend, hgoes⟩ := @unpackBits_sound input s max byte.toNat (List.range 8) h hout
      rw [unpack]
      split
      · next heq =>
        rw [hresult] at heq
        cases heq
      · next end' heq =>
        rw [hresult] at heq
        cases heq
        refine ⟨end', rfl, fun out hok => ?_⟩
        obtain ⟨hle, hle'⟩ := hend end' rfl out hok
        rw [List.length_cons]
        exact ⟨hle, by omega⟩
      · next input' s' heq =>
        have hshorter := length_unpackBits heq
        rw [hresult] at heq
        cases heq
        obtain ⟨hw, hle, hle'⟩ := hgoes _ rfl
        obtain ⟨end', hend', hwithin⟩ := ih input'.length (by omega) hw hle rfl
        refine ⟨end', hend', fun out hok => ?_⟩
        obtain ⟨hmax, hlen⟩ := hwithin out hok
        rw [List.length_cons]
        dsimp only at hle' hlen
        exact ⟨hmax, by omega⟩

end

theorem exists_word {data : Bytes} {i : Nat} (h : i + 4 ≤ data.length) :
    ∃ n < 2 ^ 32, word data i = some n := by
  obtain ⟨a, ha⟩ : ∃ a, data[i]? = some a := ⟨_, List.getElem?_eq_getElem (by omega)⟩
  obtain ⟨b, hb⟩ : ∃ b, data[i + 1]? = some b := ⟨_, List.getElem?_eq_getElem (by omega)⟩
  obtain ⟨c, hc⟩ : ∃ c, data[i + 2]? = some c := ⟨_, List.getElem?_eq_getElem (by omega)⟩
  obtain ⟨d, hd⟩ : ∃ d, data[i + 3]? = some d := ⟨_, List.getElem?_eq_getElem (by omega)⟩
  have := a.toNat_lt
  have := b.toNat_lt
  have := c.toNat_lt
  have := d.toNat_lt
  refine ⟨a.toNat + 256 * (b.toNat + 256 * (c.toNat + 256 * d.toNat)), by omega, ?_⟩
  unfold word
  rw [ha, hb, hc, hd]
  rfl

theorem slice_eq {data : Bytes} {start stop : Nat} (h : start ≤ stop) (h' : stop ≤ data.length) :
    slice data start stop = some ((data.take stop).drop start) := if_pos ⟨h, h'⟩

/-- **Whatever comes in**, nothing is read outside of it, and what comes out is at most `max` bytes
(and no more than the sizes in the header can ask for). -/
theorem decompress_sound (data : Bytes) (max : Nat) : ∃ result, decompress data max = some result ∧
    ∀ out, result = .ok out → out.length ≤ max ∧ out.length ≤ 18 * 2 ^ 32 := by
  unfold decompress
  split
  · exact ⟨_, rfl, fun _ heq => nomatch heq⟩
  · next hlen =>
    obtain ⟨compSize, hcomp, hword⟩ := @exists_word data 0 (by omega)
    obtain ⟨rawSize, hraw, hword'⟩ := @exists_word data 4 (by omega)
    obtain ⟨magic, -, hword''⟩ := @exists_word data 8 (by omega)
    obtain ⟨stop, hstop⟩ : ∃ stop, stop = Nat.max (min (compSize + 4) data.length) 16 := ⟨_, rfl⟩
    have hle : 16 ≤ stop := hstop ▸ Nat.le_max_right _ _
    have hle' : stop ≤ data.length := by
      rw [hstop]
      exact Nat.max_le.2 ⟨Nat.min_le_right _ _, by omega⟩
    have hbody : ((data.take stop).drop 16).length ≤ 2 ^ 32 + 4 := by
      have : stop ≤ compSize + 4 + 16 := by
        rw [hstop]
        exact Nat.max_le.2 ⟨(Nat.min_le_left _ _).trans (by omega), by omega⟩
      rw [List.length_drop, List.length_take]
      omega
    rw [hword, hword', hword'']
    dsimp only [Option.bind_eq_bind, Option.bind_some]
    rw [← hstop, slice_eq hle hle']
    obtain ⟨body, heq⟩ : ∃ body, body = (data.take stop).drop 16 := ⟨_, rfl⟩
    rw [← heq] at hbody ⊢
    dsimp only [Option.bind_some]
    split
    · split
      · exact ⟨_, rfl, fun _ heq => nomatch heq⟩
      · next hmax =>
        rw [slice_eq (Nat.zero_le _) (Nat.min_le_right _ _)]
        refine ⟨_, rfl, fun out heq => ?_⟩
        cases heq
        have hle : min rawSize body.length ≤ 2 ^ 32 + 4 := (Nat.min_le_right _ _).trans hbody
        have hlen : ((body.take (min rawSize body.length)).drop 0).length = min rawSize body.length := by
          rw [List.drop_zero, List.length_take, Nat.min_assoc, Nat.min_self]
        rw [hlen]
        exact ⟨Nat.le_of_not_lt hmax, hle.trans (by norm_num)⟩
    · split
      · exact ⟨_, rfl, fun _ heq => nomatch heq⟩
      · obtain ⟨result, hresult, hwithin⟩ := @unpack_sound body ⟨startWindow,
          []⟩ max sound_startWindow (Nat.zero_le _)
        refine ⟨result, hresult, fun out heq => ?_⟩
        obtain ⟨hmax, hlen⟩ := hwithin out heq
        rw [List.length_nil] at hlen
        exact ⟨hmax, by omega⟩

/-! ## 3. There and back -/

section
variable {w : Window UInt8} {offset k limit : Nat} {s : Packing} {rest tail : Bytes}

/-- What a match says. -/
theorem matchLen_spec (w : Window UInt8) (offset k limit : Nat) (rest : Bytes) :
    matchLen w offset k limit rest ≤ limit ∧ matchLen w offset k limit rest ≤ rest.length ∧
      ∀ j < matchLen w offset k limit rest, w.get? dictSize (offset + k + j) = rest[j]? := by
  induction limit generalizing k rest with
  | zero =>
    rw [matchLen]
    exact ⟨Nat.le_refl _, Nat.zero_le _, fun _ h => absurd h (Nat.not_lt_zero _)⟩
  | succ limit ih =>
    cases rest with
    | nil =>
      rw [matchLen]
      exact ⟨Nat.zero_le _, Nat.zero_le _, fun _ h => absurd h (Nat.not_lt_zero _)⟩
    | cons byte rest =>
      rw [matchLen]
      split
      · next hbyte =>
        obtain ⟨hlimit, hlen, hsame⟩ := @ih (k + 1) rest
        refine ⟨Nat.succ_le_succ hlimit, Nat.succ_le_succ hlen, fun j hj => ?_⟩
        cases j with
        | zero => exact hbyte
        | succ j =>
          rw [List.getElem?_cons_succ, ← hsame j (by omega)]
          exact congrArg _ (by omega)
      · exact ⟨Nat.zero_le _, Nat.zero_le _, fun _ h => absurd h (Nat.not_lt_zero _)⟩

/-- A run that can be referred to. -/
structure IsRun (w : Window UInt8) (rest : Bytes) (back : Nat) (best : Nat × Nat) : Prop where
  back_lt : back < dictSize
  offset : best.1 = (w.write + dictSize - back) % dictSize
  other : best.1 ≠ w.write
  len_le_back : best.2 ≤ back
  len_le : best.2 ≤ 17
  len_le_rest : best.2 ≤ rest.length
  same : ∀ j < best.2, w.get? dictSize (best.1 + 0 + j) = rest[j]?

/-- **What the search finds** is nothing, or a run. -/
theorem longest_spec (s : Packing) (rest : Bytes) :
    longest s rest = (0, 0) ∨ ∃ back, IsRun s.window rest back (longest s rest) := by
  unfold longest
  dsimp only
  split
  · next hlen =>
    refine List.foldlRecOn (motive := fun best => best = (0, 0) ∨ ∃ back,
      IsRun s.window rest back best) _ _ (.inl rfl) ?_
    intro best hbest back hback
    rw [List.mem_range'_1] at hback
    obtain ⟨hlimit, hlen, hsame⟩ := matchLen_spec s.window ((s.window.write + dictSize - back) % dictSize) 0
      (min (min rest.length 17) back) rest
    have hsize : dictSize = 4096 := rfl
    split
    · next hmore =>
      exact .inr ⟨back, ⟨by omega, rfl, hmore.2, hlimit.trans (Nat.min_le_right _ _),
        hlimit.trans ((Nat.min_le_left _ _).trans (Nat.min_le_right _ _)), hlen, hsame⟩⟩
    · exact hbest
  · exact .inl rfl

theorem toBe16_spec {n : Nat} (h : n < 65536) :
    ∃ hi lo, toBe16 n = [hi, lo] ∧ 256 * hi.toNat + lo.toNat = n := by
  refine ⟨_, _, rfl, ?_⟩
  change 256 * (UInt8.ofNat (n / 256)).toNat + (UInt8.ofNat n).toNat = n
  rw [UInt8.toNat_ofNat', UInt8.toNat_ofNat']
  omega

/-- **A reference** is read as the run it stands for. -/
theorem unpackToken_reference {back : Nat} {best : Nat × Nat} {out : Bytes} (hs : w.Sound dictSize)
    (hbest : IsRun w rest back best) (hlen : 2 ≤ best.2) :
    unpackToken true (toBe16 (16 * best.1 ||| (best.2 - 2)) ++ tail) ⟨w, out⟩ =
      some (some (tail, ⟨w.putAll dictSize (rest.take best.2), out ++ rest.take best.2⟩)) := by
  have hsize : dictSize = 4096 := rfl
  have hwrite := hs.write_lt
  have hoffset : best.1 < 4096 := hbest.offset ▸ Nat.mod_lt _ (by decide)
  have hle := hbest.len_le
  have hor : 16 * best.1 ||| (best.2 - 2) = 16 * best.1 + (best.2 - 2) :=
    (Nat.two_pow_add_eq_or_of_lt (i := 4) (by omega) best.1).symm
  obtain ⟨hi, lo, hbytes, hvalue⟩ := @toBe16_spec (16 * best.1 + (best.2 - 2)) (by omega)
  have htake : (rest.take best.2).length = best.2 := by
    rw [List.length_take]
    exact Nat.min_eq_left hbest.len_le_rest
  have hback := hbest.back_lt
  have haround : ((w.write + 4096 - back) % 4096 + 0 + back) % 4096 = w.write := by omega
  have hcopy := @Window.Sound.copy_eq _ dictSize back 0 best.1 w (rest.take best.2) hs hbest.back_lt
    (htake.le.trans hbest.len_le_back)
    (by rw [hbest.offset]; exact haround)
    (fun j hj => by
      rw [htake] at hj
      rw [hbest.same j hj, List.getElem?_take_of_lt hj])
  rw [htake] at hcopy
  rw [hor, hbytes]
  change unpackToken true (hi :: lo :: tail) ⟨w, out⟩ = _
  have hdiv : (16 * best.1 + (best.2 - 2)) / 16 = best.1 := by omega
  have hmod : (16 * best.1 + (best.2 - 2)) % 16 + 2 = best.2 := by omega
  rw [unpackToken]
  rw [hvalue, hdiv, hmod, if_neg hbest.other, hcopy]
  rfl

theorem unpackToken_literal {byte : UInt8} {out : Bytes} (hs : w.Sound dictSize) :
    unpackToken false (byte :: tail) ⟨w, out⟩ =
        some (some (tail, ⟨w.putAll dictSize [byte], out ++ [byte]⟩)) := by
  rw [unpackToken, hs.put?_eq]
  rfl

/-- A reference to where the next byte would go. -/
theorem unpackToken_end {out : Bytes} (hs : w.Sound dictSize) :
    unpackToken true (toBe16 (16 * w.write) ++ tail) ⟨w, out⟩ = some none := by
  have hwrite : w.write < 4096 := hs.write_lt
  obtain ⟨hi, lo, hbytes, hvalue⟩ := @toBe16_spec (16 * w.write) (by omega)
  rw [hbytes]
  change unpackToken true (hi :: lo :: tail) ⟨w, out⟩ = _
  rw [unpackToken]
  dsimp only
  rw [hvalue, if_pos (by omega)]

theorem advance_window (s : Packing) (bytes : Bytes) :
    (s.advance bytes).window = s.window.putAll dictSize bytes := rfl

/-- Only the bits of the tokens are set. -/
theorem mem_of_testBit {i : Nat} (h : (packBits bits s rest).control.testBit i =
    true) : i ∈ bits := by
  induction bits generalizing s rest with
  | nil =>
    rw [packBits, Nat.zero_testBit] at h
    cases h
  | cons bit bits ih =>
    cases rest with
    | nil =>
      rw [packBits, Nat.testBit_two_pow, decide_eq_true_eq] at h
      exact h ▸ List.mem_cons_self
    | cons byte rest =>
      rw [packBits] at h
      split at h
      · rw [Nat.testBit_or, Bool.or_eq_true, Nat.testBit_two_pow, decide_eq_true_eq] at h
        obtain rfl | h := h
        · exact List.mem_cons_self
        · exact List.mem_cons_of_mem _ (ih h)
      · exact List.mem_cons_of_mem _ (ih h)

/-- **One chunk**: what was packed comes out again, with the dictionary that was packed with. -/
theorem unpackBits_packBits {max control : Nat} {out : Bytes} (hnodup : bits.Nodup)
    (hs : s.window.Sound dictSize) (hmax : out.length + rest.length ≤ max)
    (hcontrol : ∀ i ∈ bits, control.testBit i = (packBits bits s rest).control.testBit i) (tail : Bytes) :
    (packBits bits s rest).after.window.Sound dictSize ∧ ∃ taken, rest = taken ++ (packBits bits s rest).rest ∧
      unpackBits max control bits ((packBits bits s rest).bytes ++ tail) ⟨s.window, out⟩ =
        if (packBits bits s rest).done then some (.inl (.ok (out ++ rest)))
        else some (.inr (tail, ⟨(packBits bits s rest).after.window, out ++ taken⟩)) := by
  induction bits generalizing s rest out with
  | nil => exact ⟨hs, [], rfl, by rw [List.append_nil]; rfl⟩
  | cons bit bits ih =>
    rw [List.nodup_cons] at hnodup
    cases rest with
    | nil =>
      have hbit : control.testBit bit = true := by
        rw [hcontrol bit List.mem_cons_self, packBits, Nat.testBit_two_pow]
        exact decide_eq_true rfl
      refine ⟨hs, [], rfl, ?_⟩
      rw [packBits, unpackBits, hbit]
      rw [unpackToken_end hs, List.append_nil]
      rfl
    | cons byte rest =>
      rw [packBits] at hcontrol ⊢
      by_cases hlen : (longest s (byte :: rest)).2 ≥ 2
      · rw [if_pos hlen] at hcontrol ⊢
        obtain ⟨back, hrun⟩ : ∃ back, IsRun s.window (byte :: rest) back (longest s (byte :: rest)) := by
          obtain h | h := longest_spec s (byte :: rest)
          · rw [h] at hlen
            exact absurd hlen (by decide)
          · exact h
        generalize longest s (byte :: rest) = best at hlen hcontrol hrun ⊢
        have hbit : control.testBit bit = true := by
          rw [hcontrol bit List.mem_cons_self, Nat.testBit_or, Nat.testBit_two_pow]
          simp
        obtain ⟨hs', taken, htaken, hrest⟩ := @ih (s.advance ((byte :: rest).take best.2))
          ((byte :: rest).drop best.2)
          (out ++ (byte :: rest).take best.2) hnodup.2 (hs.putAll _) (by
            rw [List.length_append, Nat.add_assoc, ← List.length_append, List.take_append_drop]
            exact hmax) (fun i hi => by
            rw [hcontrol i (List.mem_cons_of_mem _ hi), Nat.testBit_or, Nat.testBit_two_pow]
            have hne : bit ≠ i := fun heq => hnodup.1 (heq ▸ hi)
            simp [hne])
        refine ⟨hs', (byte :: rest).take best.2 ++ taken, ?_, ?_⟩
        · rw [List.append_assoc, ← htaken, List.take_append_drop]
        · have hout : ¬ (out ++ (byte :: rest).take best.2).length > max := by
            rw [List.length_append, List.length_take]
            have := Nat.min_le_right best.2 (byte :: rest).length
            omega
          rw [unpackBits, hbit, List.append_assoc]
          rw [unpackToken_reference hs hrun hlen]
          dsimp only [Option.bind_eq_bind, Option.bind_some]
          rw [if_neg hout, ← advance_window, hrest, List.append_assoc, List.append_assoc, List.take_append_drop]
      · rw [if_neg hlen] at hcontrol ⊢
        have hbit : control.testBit bit = false := by
          rw [hcontrol bit List.mem_cons_self, Bool.eq_false_iff]
          exact fun h => hnodup.1 (mem_of_testBit h)
        rw [List.length_cons] at hmax
        obtain ⟨hs', taken, htaken, hrest⟩ := @ih (s.advance [byte]) rest (out ++ [byte]) hnodup.2 (hs.putAll _)
          (by rw [List.length_append, List.length_singleton]; omega)
          (fun i hi => hcontrol i (List.mem_cons_of_mem _ hi))
        refine ⟨hs', byte :: taken, ?_, ?_⟩
        · rw [List.cons_append, ← htaken]
        · have hout : ¬ (out ++ [byte]).length > max := by
            rw [List.length_append, List.length_singleton]
            omega
          rw [unpackBits, hbit, List.cons_append, unpackToken_literal hs]
          dsimp only [Option.bind_eq_bind, Option.bind_some]
          rw [if_neg hout, ← advance_window, hrest, List.append_assoc, List.append_assoc]
          rfl

theorem control_lt : (packBits (List.range 8) s rest).control < 256 :=
  Nat.lt_pow_two_of_testBit (n := 8) _ fun i hi => Bool.eq_false_iff.2 fun h => by
    have := List.mem_range.1 (mem_of_testBit h)
    omega

/-- **All chunks.** -/
theorem unpack_packBody {max : Nat} {out : Bytes} (hs : s.window.Sound dictSize)
    (hmax : out.length + rest.length ≤ max) :
    unpack max (packBody s rest) ⟨s.window, out⟩ = some (.ok (out ++ rest)) := by
  induction hn : rest.length using Nat.strong_induction_on generalizing s rest out with
  | _ n ih =>
    have hcontrol : ∀ i ∈ List.range 8, (packBits (List.range 8) s rest).control.toUInt8.toNat.testBit i =
        (packBits (List.range 8) s rest).control.testBit i := fun i _ => by
      rw [Nat.toUInt8, UInt8.toNat_ofNat', Nat.mod_eq_of_lt control_lt]
    have hchunk := fun tail => unpackBits_packBits (List.nodup_range) hs hmax hcontrol tail
    rw [packBody]
    split
    · next hdone =>
      obtain ⟨-, taken, -, hbits⟩ := hchunk []
      rw [hdone, if_pos rfl, List.append_nil] at hbits
      rw [unpack]
      split
      · next heq =>
        rw [hbits] at heq
        cases heq
      · next heq =>
        rw [hbits] at heq
        cases heq
        rfl
      · next heq =>
        rw [hbits] at heq
        cases heq
    · next hdone =>
      have hshorter := length_packBits (Bool.eq_false_iff.2 hdone)
      obtain ⟨hs', taken, htaken, hbits⟩ := hchunk (packBody (packBits (List.range 8) s rest).after
        (packBits (List.range 8) s rest).rest)
      rw [if_neg hdone] at hbits
      have hne : rest ≠ [] := by
        rintro rfl
        exact hdone rfl
      have hlen := congrArg List.length htaken
      rw [List.length_append] at hlen
      rw [List.length_range] at hshorter
      rw [List.cons_append, unpack]
      split
      · next heq =>
        rw [hbits] at heq
        cases heq
      · next heq =>
        rw [hbits] at heq
        cases heq
      · next heq =>
        rw [hbits] at heq
        cases heq
        rw [ih _ (by omega) hs' (by rw [List.length_append]; omega) rfl, List.append_assoc, ← htaken]

/-! ### How long it gets -/

/-- No token is longer than what it stands for, but for the one at the end. -/
theorem length_bytes : (packBits bits s rest).bytes.length + (packBits bits s rest).rest.length ≤
    rest.length + if (packBits bits s rest).done then 2 else 0 := by
  induction bits generalizing s rest with
  | nil => exact (Nat.zero_add _).le
  | cons bit bits ih =>
    cases rest with
    | nil => exact Nat.le_refl _
    | cons byte rest =>
      rw [packBits]
      dsimp only
      split
      · next hlen =>
        have hrun : (longest s (byte :: rest)).2 ≤ (byte :: rest).length := by
          obtain h | ⟨back, h⟩ := longest_spec s (byte :: rest)
          · rw [h]
            exact Nat.zero_le _
          · exact h.len_le_rest
        have hle := @ih (s.advance ((byte :: rest).take (longest s (byte :: rest)).2))
          ((byte :: rest).drop (longest s (byte :: rest)).2)
        rw [List.length_drop] at hle
        have htwo (n : Nat) : (toBe16 n).length = 2 := rfl
        dsimp only
        rw [List.length_append, htwo]
        omega
      · have hle := @ih (s.advance [byte]) rest
        dsimp only
        rw [List.length_cons, List.length_cons]
        omega

theorem length_packBody (s : Packing) (rest : Bytes) : 8 * (packBody s rest).length ≤ 9 * rest.length + 24 := by
  induction hn : rest.length using Nat.strong_induction_on generalizing s rest with
  | _ n ih =>
    have hbytes := @length_bytes (List.range 8) s rest
    rw [packBody]
    split
    · next hdone =>
      rw [hdone, if_pos rfl] at hbytes
      rw [List.length_cons]
      omega
    · next hdone =>
      have hshorter := length_packBits (Bool.eq_false_iff.2 hdone)
      have hne : rest ≠ [] := by
        rintro rfl
        exact hdone rfl
      rw [List.length_range] at hshorter
      rw [if_neg hdone] at hbytes
      have hrest := ih _ (by omega) (packBits (List.range 8) s rest).after (packBits
        (List.range 8) s rest).rest rfl
      rw [List.length_append, List.length_cons]
      omega

end

/-! ### The whole of it -/

/-- A header of four words, and what is after it. -/
def headed (a b c d : Nat) (body : Bytes) : Bytes := toLe32 a ++ toLe32 b ++ toLe32 c ++ toLe32 d ++ body

section
variable {a b c d : Nat} {body : Bytes}

theorem length_headed : (headed a b c d body).length = body.length + 16 := rfl

theorem le32_spec {n : Nat} (h : n < 2 ^ 32) : n.toUInt8.toNat + 256 * ((n / 256).toUInt8.toNat +
    256 * ((n / 65536).toUInt8.toNat + 256 * (n / 16777216).toUInt8.toNat)) = n := by
  simp only [Nat.toUInt8, UInt8.toNat_ofNat']
  omega

theorem word_headed (ha : a < 2 ^ 32) (hc : c < 2 ^ 32) :
    word (headed a b c d body) 0 = some a ∧ word (headed a b c d body) 8 = some c := by
  constructor
  · conv_rhs => rw [← le32_spec ha]
    rfl
  · conv_rhs => rw [← le32_spec hc]
    rfl

end

theorem compress_eq (x : Bytes) : compress x = headed ((packBody startPacking x).length + 12) x.length lzfu
    (crc32 (packBody startPacking x)).toNat (packBody startPacking x) := rfl

theorem decompress_compress {x : Bytes} {max : Nat} (hfits : (packBody startPacking x).length + 12 < 2 ^ 32)
    (hmax : x.length ≤ max) : decompress (compress x) max = some (.ok x) := by
  rw [compress_eq]
  obtain ⟨hcomp, hmagic⟩ := @word_headed _ x.length lzfu
    (crc32 (packBody startPacking x)).toNat (packBody startPacking x)
    hfits (by decide)
  obtain ⟨rawSize, -, hraw⟩ := @exists_word (headed ((packBody startPacking x).length + 12) x.length lzfu
    (crc32 (packBody startPacking x)).toNat (packBody startPacking x)) 4 (by rw [length_headed]; omega)
  unfold decompress
  rw [hcomp, hraw, hmagic]
  have hlong : ¬ (headed ((packBody startPacking x).length + 12) x.length lzfu
    (crc32 (packBody startPacking x)).toNat
      (packBody startPacking x)).length < 16 := by
    rw [length_headed]
    omega
  have hstop (n : Nat) : Nat.max (min (n + 12 + 4) (n + 16)) 16 = n + 16 := by
    rw [Nat.min_eq_left (by omega)]
    exact Nat.max_eq_left (by omega)
  have hbody (a b c d : Nat) (body : Bytes) : slice (headed a b c d body) 16 (body.length + 16) =
      some body := by
    rw [slice_eq (by omega) (by rw [length_headed]), ← length_headed, List.take_length]
    rfl
  rw [if_neg hlong, length_headed]
  dsimp only [Option.bind_eq_bind, Option.bind_some]
  rw [hstop, hbody, Option.bind_some, if_neg (by decide), if_neg (not_not.2 rfl)]
  have h := @unpack_packBody startPacking x max [] sound_startWindow (by rw [List.length_nil]; omega)
  rwa [List.nil_append] at h

/-- **Compressed RTF.**  What was packed comes out again if its size fits into the header, as that
of three gigabytes always does; and whatever is unpacked gives at most `max` bytes, without a read
outside of it or of the dictionary. -/
theorem compressed_rtf {max : Nat} :
    (∀ x : Bytes, (packBody startPacking x).length + 12 < 2 ^ 32 → x.length ≤ max →
      decompress (compress x) max = some (.ok x)) ∧
    (∀ x : Bytes, x.length ≤ 3 * 2 ^ 30 → (packBody startPacking x).length + 12 < 2 ^ 32) ∧
    ∀ data, ∃ result, decompress data max = some result ∧ ∀ out, result = .ok out → out.length ≤ max := by
  refine ⟨fun x => decompress_compress, fun x hlen => ?_, fun data => ?_⟩
  · have := length_packBody startPacking x
    omega
  · obtain ⟨result, hresult, hout⟩ := decompress_sound data max
    exact ⟨result, hresult, fun out heq => (hout out heq).1⟩

theorem compressed_rtf_hello : decompress (compress (ascii "hello hello hello")) 100 =
    some (.ok (ascii "hello hello hello")) :=
  (@compressed_rtf 100).1 _ ((@compressed_rtf 100).2.1 _ (by decide)) (by decide)

/-- **More than the header can say** does not come out again. -/
theorem too_long_is_cut : ∃ (x : Bytes) (max : Nat), x.length ≤ max ∧
    decompress (compress x) max ≠ some (.ok x) := by
  refine ⟨List.replicate (2 ^ 40) 0, 2 ^ 40, by rw [List.length_replicate], fun h => ?_⟩
  obtain ⟨result, hresult, hout⟩ := decompress_sound (compress (List.replicate (2 ^ 40) 0)) (2 ^ 40)
  rw [hresult, Option.some.injEq] at h
  have hlen := (hout _ h).2
  rw [List.length_replicate] at hlen
  omega

end UwuMail.Tnef
