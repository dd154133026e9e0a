/-
# Pairing codes

Everything a server needs to find its gateway and trust it, in one line to copy (`code.rs`): the
gateway's addresses, the fingerprint of its certificate and a one-time token, with the first bytes
of a digest of all that, in base32.

* §3 reads what is written.  A text that was copied with other letter case, and with blanks, line
  breaks and dashes put in anywhere, is the same text to `parse`.
* §4 writes what was read.  No byte of the payload is left over, and base32 allows one text for it,
  so the text without the blanks and dashes, in small letters, is the code again.
* §5 is the result.  An address of version 6 has a flow label and a scope besides; a code does not
  carry them, and reads as the address without.
-/
import UwuMail.Lib.Base32
import UwuMail.Store.Mutate

namespace UwuMail.Tunnel

open Store (isWhitespace)

/-! ## 1. The code -/

/-- So many bytes. -/
abbrev Octets (n : Nat) : Type := { bytes : List UInt8 // bytes.length = n }

inductive SocketAddr where
  | v4 (ip : Octets 4) (port : UInt16)
  | v6 (ip : Octets 16) (port : UInt16) (flowinfo scopeId : UInt32)
  deriving DecidableEq

structure PairingCode where
  /-- Where the gateway listens for the tunnel, in the order to try. -/
  addresses : List SocketAddr
  fingerprint : Octets 32
  token : Octets 16
  deriving DecidableEq

inductive CodeError where
  | notACode
  | damaged

def maxAddresses : Nat := 4

def checkLen : Nat := 4

/-- `u16::to_be_bytes` -/
def toBeBytes (n : UInt16) : Octets 2 := ⟨[UInt8.ofNat (n.toNat / 256), UInt8.ofNat (n.toNat % 256)], rfl⟩

/-- `u16::from_be_bytes` -/
def fromBeBytes (bytes : Octets 2) : UInt16 :=
  UInt16.ofNat ((bytes.1.getD 0 0).toNat * 256 + (bytes.1.getD 1 0).toNat)

/-! ## 2. Writing and reading -/

/-- The family, the address and the port. -/
def SocketAddr.bytes : SocketAddr → List UInt8
  | .v4 ip port => 4 :: (ip.1 ++ (toBeBytes port).1)
  | .v6 ip port _ _ => 6 :: (ip.1 ++ (toBeBytes port).1)

section
variable (sha256 : List UInt8 → Octets 32)

/-- What a code holds, without the check. -/
def PairingCode.payload (code : PairingCode) : List UInt8 :=
  let addresses := code.addresses.take maxAddresses
  UInt8.ofNat addresses.length :: (addresses.flatMap SocketAddr.bytes ++ (code.fingerprint.1 ++ code.token.1))

def codePrefix : List Char := ['u', 'w', 'u', 'g', 'w', '1']

def PairingCode.encode (code : PairingCode) : List Char :=
  let check := (sha256 code.payload).1.take checkLen
  codePrefix ++ (Base32.encode (code.payload ++ check)).map Char.toLower

/-- `Reader::take` -/
def take (len : Nat) (bytes : List UInt8) : Except CodeError (Octets len × List UInt8) :=
  if h : bytes.length < len then .error .damaged
  else .ok (⟨bytes.take len, by rw [List.length_take]; omega⟩, bytes.drop len)

/-- One byte. -/
def takeByte (bytes : List UInt8) : Except CodeError (UInt8 × List UInt8) := do
  let (taken, bytes) ← take 1 bytes
  return (taken.1.getD 0 0, bytes)

/-- One turn of the loop over the addresses. -/
def readAddress (bytes : List UInt8) : Except CodeError (SocketAddr × List UInt8) := do
  let (family, bytes) ← takeByte bytes
  if family = 4 then
    let (ip, bytes) ← take 4 bytes
    let (port, bytes) ← take 2 bytes
    return (.v4 ip (fromBeBytes port), bytes)
  else if family = 6 then
    let (ip, bytes) ← take 16 bytes
    let (port, bytes) ← take 2 bytes
    return (.v6 ip (fromBeBytes port) 0 0, bytes)
  else throw .damaged

def readAddresses : Nat → List UInt8 → Except CodeError (List SocketAddr × List UInt8)
  | 0, bytes => return ([], bytes)
  | count + 1, bytes => do
    let (address, bytes) ← readAddress bytes
    let (addresses, bytes) ← readAddresses count bytes
    return (address :: addresses, bytes)

/-- The payload, all of it. -/
def readPayload (bytes : List UInt8) : Except CodeError PairingCode := do
  let (count, bytes) ← takeByte bytes
  if count.toNat = 0 ∨ count.toNat > maxAddresses then throw .damaged
  let (addresses, bytes) ← readAddresses count.toNat bytes
  let (fingerprint, bytes) ← take 32 bytes
  let (token, bytes) ← take 16 bytes
  if bytes ≠ [] then throw .damaged
  return ⟨addresses, fingerprint, token⟩

/-- What is ignored in a copied text. -/
def ignored (c : Char) : Bool := isWhitespace c || c == '-'

/-- The characters that count, in capitals. -/
def cleaned (text : List Char) : List Char := (text.filter fun c => !ignored c).map Char.toUpper

/-- Reads a code, ignoring case, spaces, line breaks and dashes added while copying. -/
def parse (text : List Char) : Except CodeError PairingCode := do
  let some body := (cleaned text).dropPrefix? (codePrefix.map Char.toUpper) | throw .notACode
  let some bytes := Base32.decode body | throw .damaged
  if bytes.length < checkLen then throw .damaged
  let payload := bytes.take (bytes.length - checkLen)
  let check := bytes.drop (bytes.length - checkLen)
  if (sha256 payload).1.take checkLen ≠ check then throw .damaged
  readPayload payload

end

/-- The address as a code carries it. -/
def SocketAddr.plain : SocketAddr → SocketAddr
  | .v4 ip port => .v4 ip port
  | .v6 ip port _ _ => .v6 ip port 0 0

def PairingCode.plain (code : PairingCode) : PairingCode :=
  { code with addresses := code.addresses.map SocketAddr.plain }

/-! ## 3. What is written is read -/

theorem fromBeBytes_toBeBytes (n : UInt16) : fromBeBytes (toBeBytes n) = n := by
  have hlt := n.toNat_lt
  have h1 : (UInt8.ofNat (n.toNat / 256)).toNat = n.toNat / 256 := by
    rw [UInt8.toNat_ofNat', Nat.mod_eq_of_lt (by omega)]
  have h2 : (UInt8.ofNat (n.toNat % 256)).toNat = n.toNat % 256 := by
    rw [UInt8.toNat_ofNat', Nat.mod_eq_of_lt (by omega)]
  simp only [fromBeBytes, toBeBytes, List.getD_cons_zero, List.getD_cons_succ, h1, h2]
  rw [show n.toNat / 256 * 256 + n.toNat % 256 = n.toNat by omega, UInt16.ofNat_toNat]

theorem toBeBytes_fromBeBytes (bytes : Octets 2) : toBeBytes (fromBeBytes bytes) = bytes := by
  obtain ⟨bytes, h⟩ := bytes
  match bytes, h with
  | [a, b], _ =>
    have ha := a.toNat_lt
    have hb := b.toNat_lt
    have hn : (UInt16.ofNat (a.toNat * 256 + b.toNat)).toNat = a.toNat * 256 + b.toNat := by
      rw [UInt16.toNat_ofNat', Nat.mod_eq_of_lt (by omega)]
    refine Subtype.ext ?_
    simp only [fromBeBytes, toBeBytes, List.getD_cons_zero, List.getD_cons_succ, hn]
    rw [show (a.toNat * 256 + b.toNat) / 256 = a.toNat by omega,
      show (a.toNat * 256 + b.toNat) % 256 = b.toNat by omega, UInt8.ofNat_toNat, UInt8.ofNat_toNat]

section
variable {α β : Type} {x : Except CodeError α} {f : α → Except CodeError β} {a : α} {b : β}

theorem ok_bind : (Except.ok a >>= f : Except CodeError β) = f a := rfl

theorem bind_eq_ok : (x >>= f) = Except.ok b ↔ ∃ a, x = .ok a ∧ f a = .ok b := by
  cases x with
  | error e => simp [bind, Except.bind]
  | ok a => simp [bind, Except.bind]

end

section
variable {bytes rest : List UInt8}

theorem take_append {len : Nat} (octets : Octets len) : take len (octets.1 ++ rest) = .ok (octets, rest) := by
  obtain ⟨octets, h⟩ := octets
  unfold take
  rw [dif_neg (by rw [List.length_append, h]; omega)]
  simp only [List.take_left' h, List.drop_left' h]

theorem take_eq_ok {len : Nat} {octets : Octets len} (h : take len bytes = .ok (octets, rest)) :
    bytes = octets.1 ++ rest := by
  unfold take at h
  split at h
  next => cases h
  next =>
    cases h
    exact (List.take_append_drop _ _).symm

theorem takeByte_cons {b : UInt8} : takeByte (b :: rest) = .ok (b, rest) := by
  have h := @take_append rest 1 ⟨[b], rfl⟩
  simp only [List.cons_append, List.nil_append] at h
  rw [takeByte, h]
  rfl

theorem takeByte_eq_ok {b : UInt8} (h : takeByte bytes = .ok (b, rest)) : bytes = b :: rest := by
  cases bytes with
  | nil => cases h
  | cons b' rest' =>
    rw [takeByte_cons] at h
    cases h
    rfl

theorem readAddress_bytes (address : SocketAddr) :
    readAddress (address.bytes ++ rest) = .ok (address.plain, rest) := by
  cases address with
  | v4 ip port =>
    simp only [readAddress, SocketAddr.bytes, List.cons_append, List.append_assoc, takeByte_cons,
      ok_bind, if_true,
      take_append, fromBeBytes_toBeBytes, SocketAddr.plain]
    rfl
  | v6 ip port flowinfo scopeId =>
    have hfamily : ¬ (6 : UInt8) = 4 := by decide
    simp only [readAddress, SocketAddr.bytes, List.cons_append, List.append_assoc, takeByte_cons,
      ok_bind, if_true,
      hfamily, if_false, take_append, fromBeBytes_toBeBytes, SocketAddr.plain]
    rfl

theorem readAddress_eq_ok {address : SocketAddr} (h : readAddress bytes = .ok (address, rest)) :
    bytes = address.bytes ++ rest ∧ address.plain = address := by
  unfold readAddress at h
  obtain ⟨⟨family, afterFamily⟩, hfamily, h⟩ := bind_eq_ok.1 h
  rw [takeByte_eq_ok hfamily]
  dsimp only at h
  split at h
  next hfour =>
    obtain ⟨⟨ip, afterIp⟩, hip, h⟩ := bind_eq_ok.1 h
    dsimp only at h
    obtain ⟨⟨port, afterPort⟩, hport, h⟩ := bind_eq_ok.1 h
    cases h
    rw [hfour, take_eq_ok hip, take_eq_ok hport]
    simp [SocketAddr.bytes, SocketAddr.plain, toBeBytes_fromBeBytes]
  next =>
    split at h
    next hsix =>
      obtain ⟨⟨ip, afterIp⟩, hip, h⟩ := bind_eq_ok.1 h
      dsimp only at h
      obtain ⟨⟨port, afterPort⟩, hport, h⟩ := bind_eq_ok.1 h
      cases h
      rw [hsix, take_eq_ok hip, take_eq_ok hport]
      simp [SocketAddr.bytes, SocketAddr.plain, toBeBytes_fromBeBytes]
    next => cases h

theorem readAddresses_flatMap : ∀ addresses : List SocketAddr,
    readAddresses addresses.length (addresses.flatMap SocketAddr.bytes ++ rest) =
      .ok (addresses.map SocketAddr.plain, rest)
  | [] => rfl
  | address :: addresses => by
    rw [List.length_cons, readAddresses, List.flatMap_cons, List.append_assoc, readAddress_bytes, ok_bind]
    dsimp only
    rw [readAddresses_flatMap addresses, ok_bind, List.map_cons]
    rfl

theorem readAddresses_eq_ok : ∀ {count : Nat} {bytes rest : List UInt8} {addresses : List SocketAddr},
    readAddresses count bytes = .ok (addresses, rest) →
      bytes = addresses.flatMap SocketAddr.bytes ++ rest ∧ addresses.length = count ∧
        addresses.map SocketAddr.plain = addresses
  | 0, bytes, rest, addresses, h => by
    cases h
    exact ⟨rfl, rfl, rfl⟩
  | count + 1, bytes, rest, addresses, h => by
    unfold readAddresses at h
    obtain ⟨⟨address, bytes₁⟩, haddress, h⟩ := bind_eq_ok.1 h
    obtain ⟨⟨addresses', bytes₂⟩, haddresses, h⟩ := bind_eq_ok.1 h
    cases h
    obtain ⟨hbytes, hplain⟩ := readAddress_eq_ok haddress
    obtain ⟨hbytes', hlen, hplain'⟩ := readAddresses_eq_ok haddresses
    refine ⟨?_, by simp [hlen], by rw [List.map_cons, hplain, hplain']⟩
    rw [hbytes, hbytes', List.flatMap_cons, List.append_assoc]

/-- **The payload is read as the code it is of.** -/
theorem readPayload_payload {code : PairingCode} (h : 1 ≤ code.addresses.length)
    (h' : code.addresses.length ≤ 4) :
    readPayload code.payload = .ok code.plain := by
  have htake : code.addresses.take maxAddresses = code.addresses := List.take_of_length_le h'
  have hcount : (UInt8.ofNat code.addresses.length).toNat = code.addresses.length := by
    rw [UInt8.toNat_ofNat', Nat.mod_eq_of_lt (by omega)]
  have hrange : ¬ (code.addresses.length = 0 ∨ code.addresses.length > maxAddresses) := by
    unfold maxAddresses
    omega
  have htoken := @take_append [] _ code.token
  rw [List.append_nil] at htoken
  simp only [readPayload, PairingCode.payload, htake, takeByte_cons, ok_bind, hcount, hrange, if_false,
    readAddresses_flatMap, take_append, htoken]
  rfl

/-- **No byte is left over**: a payload that is read is that of the code. -/
theorem readPayload_eq_ok {code : PairingCode} (h : readPayload bytes = .ok code) :
    bytes = code.payload ∧ code.plain = code ∧ 1 ≤ code.addresses.length ∧ code.addresses.length ≤ 4 := by
  unfold readPayload at h
  obtain ⟨⟨count, bytes₁⟩, hcount, h⟩ := bind_eq_ok.1 h
  dsimp only at h
  split at h
  next => cases h
  next hrange =>
    obtain ⟨⟨addresses, bytes₂⟩, haddresses, h⟩ := bind_eq_ok.1 h
    dsimp only at h
    obtain ⟨⟨fingerprint, bytes₃⟩, hfingerprint, h⟩ := bind_eq_ok.1 h
    dsimp only at h
    obtain ⟨⟨token, bytes₄⟩, htoken, h⟩ := bind_eq_ok.1 h
    dsimp only at h
    split at h
    next => cases h
    next hrest =>
      cases h
      obtain ⟨hbytes, hlen, hplain⟩ := readAddresses_eq_ok haddresses
      unfold maxAddresses at hrange
      refine ⟨?_, by simp [PairingCode.plain, hplain], by simp only; omega, by simp only; omega⟩
      have htake : addresses.take maxAddresses = addresses := by
        refine List.take_of_length_le ?_
        unfold maxAddresses
        omega
      rw [takeByte_eq_ok hcount, hbytes, take_eq_ok hfingerprint, take_eq_ok htoken, not_not.1 hrest]
      simp only [PairingCode.payload, htake, hlen, UInt8.ofNat_toNat, List.append_nil]

end

/-! ### Copied texts -/

/-- A text copied with other letter case, and with characters that do not count put in anywhere. -/
inductive Copied : List Char → List Char → Prop where
  | nil : Copied [] []
  | keep {c c' : Char} {text text' : List Char} (hcase : c'.toUpper = c.toUpper) (h : Copied text text') :
      Copied (c :: text) (c' :: text')
  | extra {c : Char} {text text' : List Char} (hc : ignored c = true) (h : Copied text text') :
      Copied text (c :: text')

/-- Whether a character counts does not depend on its case. -/
theorem ignored_toUpper (c : Char) : ignored c.toUpper = ignored c := by
  by_cases hc : c.toNat < 128
  · have hall : ∀ n < 128, ignored (Char.ofNat n).toUpper = ignored (Char.ofNat n) := by decide
    have h := hall c.toNat hc
    rwa [Char.ofNat_toNat] at h
  · have hsame : c.toUpper = c := by
      unfold Char.toUpper
      rw [dif_neg]
      rintro ⟨-, hz⟩
      have : c.toNat ≤ 122 := by simpa [UInt32.le_iff_toNat_le] using hz
      omega
    rw [hsame]

/-- **Copying does not change what counts.** -/
theorem cleaned_copied {text text' : List Char} (h : Copied text text') : cleaned text' = cleaned text := by
  induction h with
  | nil => rfl
  | @keep c c' text text' hcase h ih =>
    have hboth : ignored c' = ignored c := by
      rw [← ignored_toUpper c', ← ignored_toUpper c, hcase]
    unfold cleaned at ih ⊢
    simp only [List.filter_cons, hboth]
    split
    · rw [List.map_cons, List.map_cons, ih, hcase]
    · exact ih
  | @extra c text text' hc h ih =>
    rw [← ih, cleaned, List.filter_cons, hc]
    rfl

section
variable {sha256 : List UInt8 → Octets 32} {code : PairingCode} {text : List Char}

/-- The letters and digits of base32 in small letters. -/
theorem alphabet_lower : (Base32.alphabet.all fun c =>
    !ignored c.toLower && decide (c.toLower.toUpper = c) && decide (c.toUpper = c)) = true := by
  decide

theorem mem_alphabet {c : Char} (h : c ∈ Base32.alphabet) :
    ignored c.toLower = false ∧ c.toLower.toUpper = c ∧ c.toUpper = c := by
  have := List.all_eq_true.1 alphabet_lower c h
  simpa [and_assoc] using this

theorem cleaned_append (a b : List Char) : cleaned (a ++ b) = cleaned a ++ cleaned b := by
  simp [cleaned]

/-- What counts of a written code is all of it. -/
theorem cleaned_lower {data : List UInt8} : cleaned ((Base32.encode data).map Char.toLower) =
    Base32.encode data := by
  have hall : ∀ c ∈ Base32.encode data, c ∈ Base32.alphabet := fun c => Base32.mem_alphabet_of_mem
  generalize Base32.encode data = chars at hall
  induction chars with
  | nil => rfl
  | cons c chars ih =>
    obtain ⟨hkeep, hcase, -⟩ := mem_alphabet (hall c List.mem_cons_self)
    have ih := ih fun d hd => hall d (List.mem_cons_of_mem _ hd)
    unfold cleaned at ih ⊢
    rw [List.map_cons, List.filter_cons, hkeep]
    simp only [Bool.not_false, if_true, List.map_cons, hcase, ih]

theorem cleaned_encode : cleaned (code.encode sha256) =
    codePrefix.map Char.toUpper ++ Base32.encode (code.payload ++ (sha256 code.payload).1.take checkLen) := by
  have hprefix : cleaned codePrefix = codePrefix.map Char.toUpper := by decide
  rw [PairingCode.encode, cleaned_append, hprefix, cleaned_lower]

/-- **A copied code is read.** -/
theorem parse_copied (h : 1 ≤ code.addresses.length) (h' : code.addresses.length ≤ 4)
    (hcopied : Copied (code.encode sha256) text) : parse sha256 text = .ok code.plain := by
  have hclean := (cleaned_copied hcopied).trans cleaned_encode
  have hcheck : ((sha256 code.payload).1.take checkLen).length = checkLen := by
    rw [List.length_take, (sha256 code.payload).2]
    rfl
  obtain ⟨check, hcheck'⟩ : ∃ check, check = (sha256 code.payload).1.take checkLen := ⟨_, rfl⟩
  rw [← hcheck'] at hcheck hclean
  have hsplit : (code.payload ++ check).length - checkLen = code.payload.length := by
    rw [List.length_append, hcheck]
    omega
  have hshort : ¬ (code.payload ++ check).length < checkLen := by
    rw [List.length_append, hcheck]
    omega
  unfold parse
  rw [hclean, List.dropPrefix?_eq_some_iff.2 ⟨_, rfl, beq_self_eq_true _⟩]
  simp only [Base32.decode_encode, hshort, if_false, hsplit, List.take_left, List.drop_left, ← hcheck', ne_eq,
    not_true_eq_false]
  exact readPayload_payload h h'

/-! ## 4. What is read is written -/

/-- **What was read is the code**, in small letters and without what does not count. -/
theorem parse_eq_ok (h : parse sha256 text = .ok code) :
    code.encode sha256 = (cleaned text).map Char.toLower ∧ code.plain = code ∧
      1 ≤ code.addresses.length ∧ code.addresses.length ≤ 4 := by
  unfold parse at h
  split at h
  next body hbody =>
    split at h
    next bytes hbytes =>
      split at h
      next => cases h
      next hlen =>
        dsimp only at h
        split at h
        next => cases h
        next hcheck =>
          obtain ⟨hpayload, hplain, hone, hfour⟩ := readPayload_eq_ok h
          obtain ⟨start, hclean, hstart⟩ := List.dropPrefix?_eq_some_iff.1 hbody
          refine ⟨?_, hplain, hone, hfour⟩
          -- the payload and the check are all of the bytes
          have hall : code.payload ++ (sha256 code.payload).1.take checkLen = bytes := by
            rw [← hpayload, not_not.1 hcheck, List.take_append_drop]
          have hlower : (codePrefix.map Char.toUpper).map Char.toLower = codePrefix := by decide
          rw [hclean, eq_of_beq hstart, List.map_append, hlower, PairingCode.encode, hall,
            Base32.encode_of_decode hbytes]
    next => cases h
  next => cases h

end

/-! ## 5. Round trips -/

/-- **Pairing codes.**  A code with one to four addresses is read from every copy of its text,
without the flow labels and scopes of its addresses.  Every text that is read has a payload without
a byte left over, so writing the code again gives the text's canonical form, and the digest is any
function to 32 bytes. -/
theorem pairing_round_trip (sha256 : List UInt8 → Octets 32) :
    (∀ (code : PairingCode) (text : List Char), 1 ≤ code.addresses.length → code.addresses.length ≤ 4 →
      Copied (code.encode sha256) text → parse sha256 text = .ok code.plain) ∧
    ∀ (text : List Char) (code : PairingCode), parse sha256 text = .ok code →
      code.encode sha256 = (cleaned text).map Char.toLower ∧ code.plain = code ∧
        1 ≤ code.addresses.length ∧ code.addresses.length ≤ 4 :=
  ⟨fun _ _ => parse_copied, fun _ _ => parse_eq_ok⟩

theorem Copied.refl : ∀ text : List Char, Copied text text
  | [] => .nil
  | _ :: text => .keep rfl (Copied.refl text)

/-- A gateway at an address of its own and a link-local one, by its interface. -/
def linkLocal (scopeId : UInt32) : PairingCode where
  addresses := [.v4 ⟨[192, 0, 2, 7], rfl⟩ 443,
    .v6 ⟨[0xfe, 0x80, 0, 0, 0, 0, 0, 0, 0, 0, 0, 0, 0, 0, 0, 1], rfl⟩ 443 0 scopeId]
  fingerprint := ⟨List.replicate 32 7, rfl⟩
  token := ⟨List.replicate 16 9, rfl⟩

/-- The scope of an address is lost. -/
theorem pairing_scope_fails :
    ¬ ∀ (sha256 : List UInt8 → Octets 32) (code : PairingCode), 1 ≤ code.addresses.length →
      code.addresses.length ≤ 4 → parse sha256 (code.encode sha256) = .ok code := by
  intro h
  have hread := h (fun _ => ⟨List.replicate 32 0, rfl⟩) (linkLocal 3) (by decide) (by decide)
  rw [parse_copied (by decide) (by decide) (Copied.refl _)] at hread
  exact absurd (Except.ok.inj hread) (by decide)

/-- The same code without a scope comes back, also from its own text with a dash before it. -/
theorem pairing_round_trip_dash :
    let digest : List UInt8 → Octets 32 := fun bytes => ⟨(bytes ++ List.replicate 32 0).take 32, by simp⟩
    parse digest ('-' :: (linkLocal 0).encode digest) = .ok (linkLocal 0) :=
  (pairing_round_trip _).1 (linkLocal 0) _ (by decide) (by decide) (.extra (by decide) (Copied.refl _))

end UwuMail.Tunnel
