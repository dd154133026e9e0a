/-
# Stored objects, byte for byte

`format.rs`.  An object is a version byte, a byte of flags, and a body: the content, compressed
where that makes it shorter; in an encrypted repository the body is sealed and a nonce stands before
it, and the two bytes of the header are authenticated with it.  The decoder goes by the flags alone,
so content that LOOKS like an object of its own is no trouble (`decode_encode`).

Hashes, the AEAD and deflate are not this program's: `Primitives` lists what it calls, with the
inverses and the lengths it relies on.  That no two contents at hand share an id, and that nobody
without the key makes something that opens, are no laws of the functions: they are said where they
are used (`Distinct`, `Unforged`).
-/
import UwuMail.Backup.Repository

namespace UwuMail.Backup.Bytewise

abbrev Bytes := List UInt8

/-! ## 1. Primitives -/

/-- What `sha2`, `aws_lc_rs` and `flate2` are called for. -/
structure Primitives where
  sha256 : Bytes → Bytes
  hmac : Bytes → Bytes → Bytes
  deflate : Bytes → Bytes
  /-- The first bytes that a stream unpacks to, at most so many; `none` for a read error. -/
  inflate : Bytes → Nat → Option Bytes
  /-- `seal_in_place_append_tag`: key, nonce, additional data, plain text. -/
  sealing : Bytes → Bytes → Bytes → Bytes → Bytes
  opening : Bytes → Bytes → Bytes → Bytes → Option Bytes
  sha256_length : ∀ content, (sha256 content).length = 32
  hmac_length : ∀ key content, (hmac key content).length = 32
  inflate_deflate : ∀ content n, inflate (deflate content) n = some (content.take n)
  opening_sealing : ∀ key nonce aad plain, opening key nonce aad (sealing key nonce aad plain) = some plain
  sealing_length : ∀ key nonce aad plain, (sealing key nonce aad plain).length = plain.length + 16

/-- What goes wrong while reading or writing a repository. -/
inductive Error where
  | wrongKey
  | damaged (what : String)
  | config (what : String)
  | io
  deriving DecidableEq

/-- What the repository is opened with: a key, or none. -/
structure Codec where
  key : Option Bytes

/-- A nonce that was drawn. -/
abbrev Nonce := { nonce : Bytes // nonce.length = 12 }

def objectVersion : UInt8 := 1
def flagEncrypted : UInt8 := 0x80
def flagCompressed : UInt8 := 0x01
def nonceLen : Nat := 12

/-! ## 2. Ids -/

/-- A digit of `hex::encode`. -/
def hexDigit (n : Nat) : Char := "0123456789abcdef".toList.getD n '0'

/-- `hex::encode`. -/
def hex (bytes : Bytes) : String :=
  String.ofList (bytes.flatMap fun b => [hexDigit (b.toNat / 16), hexDigit (b.toNat % 16)])

theorem isHexDigit_hexDigit : ∀ n < 16, isHexDigit (hexDigit n) = true := by decide

theorem isId_hex {bytes : Bytes} (h : bytes.length = 32) : isId (hex bytes) = true := by
  have hlen : (hex bytes).toList.length = 64 := by
    simp only [hex, String.toList_ofList, List.length_flatMap, List.length_cons, List.length_nil,
      List.map_const', List.sum_replicate, h]
    rfl
  have hall : ∀ c ∈ (hex bytes).toList, isHexDigit c = true := by
    intro c hc
    simp only [hex, String.toList_ofList, List.mem_flatMap, List.mem_cons, List.not_mem_nil,
      or_false] at hc
    obtain ⟨b, -, rfl | rfl⟩ := hc
    · exact isHexDigit_hexDigit _ (Nat.div_lt_of_lt_mul b.toNat_lt)
    · exact isHexDigit_hexDigit _ (Nat.mod_lt _ (by decide))
  unfold isId
  rw [hlen]
  simpa using hall

def utf8 (s : String) : Bytes := s.toUTF8.data.toList

namespace Primitives

variable (p : Primitives)

/-- `BlobHash::of`: the hash of content in hexadecimal. -/
def hashOf (content : Bytes) : String := hex (p.sha256 content)

/-- `RepoKey::derived`. -/
def derived (key : Bytes) (purpose : String) : Bytes := p.hmac key (utf8 purpose)

/-- The id of content whose SHA-256 is `sha256`. -/
def idForHash (codec : Codec) (sha256 : String) : String :=
  match codec.key with
  | some key => hex (p.hmac (p.derived key "ids") (utf8 sha256))
  | none => sha256

def idFor (codec : Codec) (content : Bytes) : String := p.idForHash codec (p.hashOf content)

theorem isId_hashOf (content : Bytes) : isId (p.hashOf content) = true := isId_hex (p.sha256_length _)

theorem isId_idFor (codec : Codec) (content : Bytes) : isId (p.idFor codec content) = true := by
  unfold idFor idForHash
  cases codec.key with
  | some key => exact isId_hex (p.hmac_length _ _)
  | none => exact p.isId_hashOf content

/-! ## 3. Encoding and decoding -/

/-- The body of an object, and whether it is compressed. -/
def pack (content : Bytes) : UInt8 × Bytes :=
  let compressed := p.deflate content
  if compressed.length < content.length then (flagCompressed, compressed) else (0, content)

def encode (codec : Codec) (nonce : Nonce) (content : Bytes) : Bytes :=
  let (flags, body) := p.pack content
  match codec.key with
  | none => [objectVersion, flags] ++ body
  | some key =>
    let header := [objectVersion, flags ||| flagEncrypted]
    header ++ nonce.1 ++ p.sealing (p.derived key "encrypt") nonce.1 header body

/-- The body of an object, opened where it is sealed. -/
def bodyOf (codec : Codec) (version flags : UInt8) (rest : Bytes) : Except Error Bytes :=
  if flags &&& flagEncrypted != 0 then
    match codec.key with
    | none => .error .wrongKey
    | some key =>
      if rest.length < nonceLen then .error (.damaged "an encrypted object is too short")
      else
        match p.opening (p.derived key "encrypt") (rest.take nonceLen) [version, flags]
            (rest.drop nonceLen) with
        | some plain => .ok plain
        | none => .error (.damaged "an object does not decrypt; it was changed or the key is wrong")
  else .ok rest

def tooLong (limit : Nat) : Error :=
  .damaged s!"an object is longer than the {limit} bytes it may have"

/-- The content of a body.  It is inflated only up to the limit. -/
def unpack (flags : UInt8) (body : Bytes) (limit : Nat) : Except Error Bytes :=
  if flags &&& flagCompressed == 0 then
    if body.length > limit then .error (tooLong limit) else .ok body
  else
    match p.inflate body (limit + 1) with
    | none => .error .io
    | some content => if content.length > limit then .error (tooLong limit) else .ok content

/-- The content of a stored object, refused when it would be longer than `limit` bytes. -/
def decode (codec : Codec) (object : Bytes) (limit : Nat) : Except Error Bytes :=
  match object with
  | version :: flags :: rest =>
    if version != objectVersion then .error (.damaged s!"unknown object version {version}")
    else if codec.key.isSome && flags &&& flagEncrypted == 0 then
      .error (.damaged "an object in this encrypted backup is not encrypted; it was changed")
    else do
      let body ← p.bodyOf codec version flags rest
      p.unpack flags body limit
  | _ => .error (.damaged "an object is too short")

variable {codec : Codec} {nonce : Nonce} {content : Bytes}

/-- The flags say what `pack` did, whether the body is sealed or not. -/
theorem unpack_pack (content : Bytes) (limit : Nat) {flags : UInt8}
    (hflags : flags = (p.pack content).1 ∨ flags = (p.pack content).1 ||| flagEncrypted) :
    p.unpack flags (p.pack content).2 limit =
      if content.length > limit then .error (tooLong limit) else .ok content := by
  unfold pack at hflags ⊢
  by_cases hlen : (p.deflate content).length < content.length
  · simp only [hlen, if_true] at hflags ⊢
    have hbit : (flags &&& flagCompressed == 0) = false := by
      rcases hflags with rfl | rfl <;> decide
    unfold unpack
    rw [hbit, p.inflate_deflate]
    simp only [Bool.false_eq_true, if_false, List.length_take]
    by_cases hlimit : content.length > limit
    · rw [if_pos (by omega), if_pos hlimit]
    · rw [if_neg (by omega), if_neg hlimit, List.take_of_length_le (by omega)]
  · simp only [hlen, if_false] at hflags ⊢
    have hbit : (flags &&& flagCompressed == 0) = true := by
      rcases hflags with rfl | rfl <;> decide
    unfold unpack
    rw [hbit, if_pos rfl]

theorem pack_flags (content : Bytes) :
    ((p.pack content).1 &&& flagEncrypted != 0) = false ∧
      (((p.pack content).1 ||| flagEncrypted) &&& flagEncrypted != 0) = true := by
  unfold pack
  by_cases h : (p.deflate content).length < content.length
  · simp only [h, if_true]
    decide
  · simp only [h, if_false]
    decide

theorem pack_length (content : Bytes) : (p.pack content).2.length ≤ content.length := by
  unfold pack
  by_cases h : (p.deflate content).length < content.length
  · simp only [h, if_true]
    omega
  · simp [h]

/-- **What is decoded is what was encoded**, whatever the content and however it was framed. -/
theorem decode_encode (codec : Codec) (nonce : Nonce) (content : Bytes) (limit : Nat) :
    p.decode codec (p.encode codec nonce content) limit =
      if content.length > limit then .error (tooLong limit) else .ok content := by
  obtain ⟨hplain, hsealed⟩ := p.pack_flags content
  obtain ⟨key⟩ := codec
  cases key with
  | none =>
    have hbody : ∀ version, p.bodyOf ⟨none⟩ version (p.pack content).1 (p.pack content).2 =
        .ok (p.pack content).2 := by
      intro version
      unfold bodyOf
      rw [hplain]
      rfl
    rw [← p.unpack_pack content limit (Or.inl rfl)]
    simp only [encode, decode, List.cons_append, List.nil_append, bne_self_eq_false,
      Bool.false_eq_true, if_false, Option.isSome_none, Bool.false_and, hbody]
    rfl
  | some key =>
    have hbody : p.bodyOf ⟨some key⟩ objectVersion ((p.pack content).1 ||| flagEncrypted)
        (nonce.1 ++ p.sealing (p.derived key "encrypt") nonce.1
          [objectVersion, (p.pack content).1 ||| flagEncrypted] (p.pack content).2) =
        .ok (p.pack content).2 := by
      unfold bodyOf
      have htake : ∀ l : Bytes, (nonce.1 ++ l).take nonceLen = nonce.1 := fun l =>
        List.take_left' nonce.2
      have hdrop : ∀ l : Bytes, (nonce.1 ++ l).drop nonceLen = l := fun l => List.drop_left' nonce.2
      have hlen : ∀ l : Bytes, ¬ (nonce.1 ++ l).length < nonceLen := by
        intro l
        rw [List.length_append, nonce.2]
        simp [nonceLen]
      rw [if_pos hsealed]
      simp only [hlen, if_false, htake, hdrop, p.opening_sealing]
    have hflag : ((p.pack content).1 ||| flagEncrypted) &&& flagEncrypted ≠ 0 := by
      simpa using hsealed
    rw [← p.unpack_pack content limit (Or.inr rfl)]
    simp only [encode, decode, List.cons_append, List.nil_append, bne_self_eq_false,
      Bool.false_eq_true, if_false, Option.isSome_some, Bool.true_and, beq_eq_false_iff_ne.2 hflag,
      hbody]
    rfl

/-- What an object adds to its content: the header, the nonce and the tag. -/
theorem encode_length (codec : Codec) (nonce : Nonce) (content : Bytes) :
    (p.encode codec nonce content).length ≤ content.length + 30 := by
  have := p.pack_length content
  obtain ⟨key⟩ := codec
  cases key with
  | none =>
    simp only [encode, List.cons_append, List.nil_append, List.length_cons]
    omega
  | some key =>
    simp only [encode, List.cons_append, List.nil_append, List.length_cons, List.length_append,
      nonce.2, p.sealing_length]
    omega

/-! ## 4. Somebody without the key -/

/-- Nobody but this server makes what opens under the key: an object that does is one of `made`. -/
def Unforged (key : Bytes) (made : Bytes → Prop) (object : Bytes) : Prop :=
  ∀ version flags nonce sealed, object = version :: flags :: (nonce ++ sealed) →
    nonce.length = nonceLen →
    (p.opening (p.derived key "encrypt") nonce [version, flags] sealed).isSome = true → made object

/-- In an encrypted repository only sealed objects are read. -/
theorem made_of_decode {key : Bytes} {made : Bytes → Prop} {object : Bytes} {limit : Nat}
    (h : p.Unforged key made object) (hok : p.decode ⟨some key⟩ object limit = .ok content) :
    made object := by
  unfold decode at hok
  split at hok
  · rename_i version flags rest
    split at hok
    · cases hok
    split at hok
    · cases hok
    rename_i hflag
    obtain ⟨body, hbody, -⟩ := Tx.except_bind_ok hok
    unfold bodyOf at hbody
    have hflag : (flags &&& flagEncrypted != 0) = true := by simpa using hflag
    simp only [hflag, if_true] at hbody
    split at hbody
    · cases hbody
    rename_i hlen
    split at hbody
    · rename_i plain hopen
      refine h version flags (rest.take nonceLen) (rest.drop nonceLen) ?_ ?_ ?_
      · rw [List.take_append_drop]
      · rw [List.length_take]
        omega
      · rw [hopen]
        rfl
    · cases hbody
  · cases hok

end Primitives

end UwuMail.Backup.Bytewise
