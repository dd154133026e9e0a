/-
# The client behind a relay

`relay.rs` reads the Received headers of a message from the newest down, past the hops that came
from a trusted relay, to the first that did not: there it finds the address of the client, in the
comment the relay wrote.  `inbound.rs` writes such a header, with the name the client greeted with
right before the comment.

**A greeting cannot forge the address** (`client_is_not_forged`).  The header this server writes for
a client that is no relay is read as the address the server saw, whatever the client said and
whatever stands below it; it gives no address where the client stays private.  And the hop the
answer comes from is the first that is not trusted or cannot be read: with what stands below it, the
answer is the same.

The address of a session is canonical, so an IPv6 socket that talks to an IPv4 client has that
address.
-/
import UwuMail.Lib.IpAddr
import UwuMail.Lib.Letters
import UwuMail.Lib.Words
import UwuMail.Smtp.AuthResults
import UwuMail.Store.Mutate

namespace UwuMail.Smtp.Relay

open Utf8 (encode)
open Lib (IpAddr words lower)
open Store (isWhitespace)
open Headers (Bytes RawHeader Text)

/-! ## 1. The source -/

def Ipv4.toBits (x : Lib.Ipv4) : BitVec 32 :=
  BitVec.ofNat 32 (((x.a.toNat * 256 + x.b.toNat) * 256 + x.c.toNat) * 256 + x.d.toNat)

def Ipv6.toBits (x : Lib.Ipv6) : BitVec 128 :=
    BitVec.ofNat 128 (x.segments.foldl (fun n s => n * 65536 + s.toNat) 0)

/-- `MAX.checked_shl(shift)`, zero where that is `None`. -/
def shiftedOnes (w shift : Nat) : BitVec w := if shift < w then BitVec.allOnes w <<< shift else 0

structure IpNetwork where
  address : IpAddr
  prefixLen : Nat

def IpNetwork.contains (network : IpNetwork) (ip : IpAddr) : Bool :=
  match network.address, ip.toCanonical with
  | .v4 net, .v4 ip =>
    let mask := shiftedOnes 32 (32 - network.prefixLen)
    Ipv4.toBits net &&& mask == Ipv4.toBits ip &&& mask
  | .v6 net, .v6 ip =>
    let mask := shiftedOnes 128 (128 - network.prefixLen)
    Ipv6.toBits net &&& mask == Ipv6.toBits ip &&& mask
  | _, _ => false

/-- `str::find`. -/
def find (needle : Text) : Text → Option Nat
  | [] => if needle = [] then some 0 else none
  | c :: text => if needle.isPrefixOf (c :: text) then some 0 else (find needle text).map (· + 1)

def isBracket (c : Char) : Bool := c == '[' || c == ']'

/-- What is behind `IPv6:`. -/
def stripIpv6 (literal : Text) : Text :=
  if "IPv6:".toList.isPrefixOf literal || "ipv6:".toList.isPrefixOf literal then literal.drop 5 else literal

/-- What stands behind `from `, up to ` by `. -/
def fromClause (value : Text) : Option Text :=
  let lowered := lower value
  (find "from ".toList lowered).map fun i =>
    let fromStart := i + 5
    let fromEnd :=
      match find " by ".toList (lowered.drop fromStart) with
      | some i => fromStart + i
      | none => value.length
    (value.take fromEnd).drop fromStart

/-- Reads `from <helo> (<rdns> [<ip>])` out of a Received header value. -/
def parseReceivedFrom (value : Text) : Option (Text × IpAddr) := do
  let clause ← fromClause value
  let helo := Lib.trim isBracket (← (words isWhitespace clause).head?)
  let comment := clause.drop (← find ['('] clause)
  let start := (← find ['['] comment) + 1
  let stop := (← find [']'] (comment.drop start)) + start
  let literal := stripIpv6 (Lib.trim isWhitespace ((comment.take stop).drop start))
  let ip ← IpAddr.parse literal
  some (helo, ip.toCanonical)

/-- The values of the Received headers, the newest first. -/
def hops (raw : Bytes) : List Text :=
  ((Headers.fields raw).filter (Headers.named ["Received"])).map Headers.RawHeader.value

def isTrusted (trusted : List IpNetwork) (ip : IpAddr) : Bool := trusted.any (·.contains ip)

def walk (trusted : List IpNetwork) : List Text → Option (IpAddr × Text)
  | [] => none
  | value :: hops =>
    match parseReceivedFrom value with
    -- a hop that cannot be read
    | none => none
    | some (helo, ip) =>
      if !isTrusted trusted ip then some (ip, helo)
      -- down to the server that talked to the relay
      else walk trusted hops

/-- Walks the Received headers from the newest down to the first hop that did not come from a
trusted relay. -/
def originalClient (raw : Bytes) (trusted : List IpNetwork) : Option (IpAddr × Text) :=
    walk trusted (hops raw)

/-! The header this server writes. -/

def isHeloChar (c : Char) : Bool := c.isAlphanum || c == '.' || c == '-' || c == '_' || c == ':'

/-- Between the brackets of an address literal, or all of it. -/
def heloInner (helo : Text) : Text :=
  match helo with
  | '[' :: rest => if rest.getLast? = some ']' then rest.dropLast else helo
  | _ => helo

/-- The client's HELO as this server writes it into its own Received header. -/
def traceHelo (helo : Text) : Text :=
  if heloInner helo ≠ [] ∧ (heloInner helo).all isHeloChar then helo else "unknown".toList

/-- The `from` clause of this server's Received header. -/
def receivedFrom (helo : Text) (peer : Option IpAddr) : Text :=
  match peer with
  | some peer => "from ".toList ++ traceHelo helo ++ " ([".toList ++ peer.display ++ "])".toList
  | none => "from localhost".toList

/-- The client of a session: the address of its socket, and what it said. -/
structure Client where
  socket : IpAddr
  helo : Option Text
  tls : Option Text
  submitted : Bool

/-- `handle`: the address a session has. -/
def Client.peer (client : Client) : IpAddr := client.socket.toCanonical

/-- What the server adds to the header: its name, whether it names the clients of its own people,
and the rest. -/
structure Stamp where
  hostname : Text
  revealClientIp : Bool
  id : Text
  recipient : Option Text
  date : Text

def Client.isPrivate (client : Client) (stamp : Stamp) : Bool := client.submitted && !stamp.revealClientIp

def protocol (client : Client) : Text :=
  match client.submitted, client.tls.isSome with
  | true, true => "ESMTPSA".toList
  | true, false => "ESMTPA".toList
  | false, true => "ESMTPS".toList
  | false, false => "ESMTP".toList

/-- The trace header this server adds on top, saying how the message got here. -/
def receivedHeader (client : Client) (stamp : Stamp) : Text :=
  let clause := receivedFrom (client.helo.getD []) (if client.isPrivate stamp then none else some client.peer)
  "Received: ".toList ++ clause ++ "\r\n\tby ".toList ++ stamp.hostname ++
    " (UwUMail) with ".toList ++ protocol client ++
    (match client.tls with
      | some tls => "\r\n\t(using ".toList ++ tls ++ ")".toList
      | none => []) ++
    " id ".toList ++ stamp.id ++
    (match stamp.recipient with
      | some recipient => "\r\n\tfor <".toList ++ recipient ++ ">".toList
      | none => []) ++
    ";\r\n\t".toList ++ stamp.date ++ "\r\n".toList

/-! ## 2. The first field of a message -/

section Field

open Headers (lf splitLines fields)

variable {raw rest : Bytes} {header : RawHeader} {headers : List RawHeader} {text clause : Text}

theorem fields_eq_splitLines (raw : Bytes) : fields raw = (splitLines [] (Lib.lines (· == lf) raw)).1 := by
  have hsplit := @Headers.splitFrom_eq [] _ (Lib.whole_lines (· == lf) raw)
  rw [Lib.flatten_lines] at hsplit
  unfold fields Headers.split
  change (Headers.splitFrom raw 0 []).1.map (·.header) = _
  change Headers.splitFrom raw 0 [] = _ at hsplit
  rw [hsplit]
  exact Headers.map_place

/-- The lines behind it may go on with the first field, and no more. -/
theorem splitLines_first (ls : List Bytes) : ∃ more headers' rest, splitLines (header :: headers) ls =
    ({ header with raw := header.raw ++ more } :: headers', rest) := by
  induction ls generalizing header headers with
  | nil => exact ⟨[], headers, [], by rw [List.append_nil]; rfl⟩
  | cons line ls ih =>
    unfold splitLines
    split
    · exact ⟨[], headers, line :: ls, by rw [List.append_nil]⟩
    split
    · cases hlast : headers.getLast? with
      | none =>
        obtain rfl := List.getLast?_eq_none_iff.1 hlast
        obtain ⟨more, headers', rest, heq⟩ := @ih { header with raw := header.raw ++ line } []
        refine ⟨line ++ more, headers', rest, ?_⟩
        rw [← List.append_assoc]
        exact heq
      | some last =>
        obtain ⟨init, rfl⟩ := List.getLast?_eq_some_iff.1 hlast
        rw [← List.cons_append, List.getLast?_concat, List.dropLast_concat]
        exact ih
    split
    · exact ⟨[], headers, line :: ls, by rw [List.append_nil]⟩
    · rw [List.cons_append]
      exact ih

theorem lines_append_letters {a : Bytes} (hne : a ≠ []) (ha : ∀ b ∈ a, (b == lf) = false) (l : Bytes) :
    ∃ more ls, Lib.lines (· == lf) (a ++ l) = (a ++ more) :: ls := by
  induction a with
  | nil => exact absurd rfl hne
  | cons b a ih =>
    have hb := ha b List.mem_cons_self
    rw [List.cons_append, Lib.lines, if_neg (by rw [hb]; exact Bool.false_ne_true)]
    cases a with
    | nil =>
      cases Lib.lines (· == lf) ([] ++ l) with
      | nil => exact ⟨[], [], rfl⟩
      | cons line ls => exact ⟨line, ls, rfl⟩
    | cons c a =>
      obtain ⟨more, ls, heq⟩ := ih (List.cons_ne_nil _ _) fun d hd => ha d (List.mem_cons_of_mem _ hd)
      rw [heq]
      exact ⟨more, ls, rfl⟩

/-- Printable, and ASCII. -/
def isPrintable (c : Char) : Bool := 0x20 ≤ c.toNat && c.toNat ≤ 0x7e

theorem lossy_append (text : Text) (bytes : Bytes) :
    ∃ more, Utf8.lossy (encode text ++ bytes) = text ++ more := by
  have hfuel : ∀ (text : Text) (fuel : Nat), text.length ≤ fuel →
      ∃ more, Utf8.lossyUpTo fuel (encode text ++ bytes) = text ++ more := by
    intro text
    induction text with
    | nil => exact fun fuel _ => ⟨_, rfl⟩
    | cons c text ih =>
      intro fuel hfuel
      obtain ⟨fuel, rfl⟩ : ∃ n, fuel = n + 1 := Nat.exists_eq_succ_of_ne_zero (by rw [List.length_cons] at hfuel; omega)
      have hread := @Utf8.decodeChar?_append c (encode text ++ bytes)
      have hdrop : (String.utf8EncodeChar c ++ (encode text ++ bytes)).drop c.utf8Size =
        encode text ++ bytes := by
        rw [← String.length_utf8EncodeChar, List.drop_left]
      rw [Utf8.encode_cons, List.append_assoc]
      obtain ⟨more, hmore⟩ := ih fuel (Nat.le_of_succ_le_succ hfuel)
      refine ⟨more, ?_⟩
      cases hbytes : String.utf8EncodeChar c ++ (encode text ++ bytes) with
      | nil =>
        have hnone : Utf8.decodeChar? [] = none := by decide
        rw [hbytes, hnone] at hread
        cases hread
      | cons b bs =>
        rw [hbytes] at hread hdrop
        rw [Utf8.lossyUpTo, hread]
        dsimp only
        rw [hdrop, hmore]
        rfl
  refine hfuel text _ ?_
  rw [List.length_append]
  exact Nat.le_add_right_of_le Utf8.length_le_encode

theorem encode_printable (h : ∀ c ∈ text, isPrintable c = true) : ∀ b ∈ encode text, (b == lf) = false := by
  have hascii : ∀ c ∈ text, c.val ≤ 127 := by
    intro c hc
    have hc := h c hc
    unfold isPrintable at hc
    rw [Bool.and_eq_true, decide_eq_true_eq, decide_eq_true_eq] at hc
    exact UInt32.le_iff_toNat_le.2 (hc.2.trans (by decide))
  rw [Utf8.encode_ascii hascii]
  intro b hb
  obtain ⟨c, hc, rfl⟩ := List.mem_map.1 hb
  have hlow := h c hc
  unfold isPrintable at hlow
  rw [Bool.and_eq_true, decide_eq_true_eq, decide_eq_true_eq] at hlow
  rw [beq_eq_false_iff_ne]
  intro heq
  have hnat := congrArg UInt8.toNat heq
  rw [UInt8.toNat_ofNat'] at hnat
  change c.toNat % 256 = 10 at hnat
  omega

/-- **The header on top is the first field**, whatever stands behind it. -/
theorem fields_received (h : ∀ c ∈ clause, isPrintable c = true) (rest : Bytes) : ∃ more headers,
    fields (encode ("Received: ".toList ++ clause ++ "\r\n\tby ".toList) ++ rest) =
      ⟨"Received".toList, encode ("Received: ".toList ++ clause ++ "\r\n\tby ".toList) ++
          more⟩ :: headers := by
  have hfirst : Lib.Ended (· == lf) (encode ("Received: ".toList ++ clause ++ "\r\n".toList)) := by
    refine ⟨encode ("Received: ".toList ++ clause) ++ [0x0d], lf, ?_, rfl, fun b hb => ?_⟩
    · rw [Utf8.encode_append, List.append_assoc]
      rfl
    · rcases List.mem_append.1 hb with hb | hb
      · refine encode_printable (fun c hc => ?_) b hb
        rcases List.mem_append.1 hc with hc | hc
        · have hall : "Received: ".toList.all isPrintable = true := by decide
          exact List.all_eq_true.1 hall c hc
        · exact h c hc
      · obtain rfl := List.mem_singleton.1 hb
        rfl
  have hraw : encode ("Received: ".toList ++ clause ++ "\r\n\tby ".toList) ++ rest =
      encode ("Received: ".toList ++ clause ++ "\r\n".toList) ++ ([0x09, 0x62, 0x79, 0x20] ++ rest) := by
    simp only [Utf8.encode_append, List.append_assoc]
    rfl
  obtain ⟨line, ls, hsecond⟩ := lines_append_letters (List.cons_ne_nil 0x09 [0x62, 0x79, 0x20])
    (by decide +kernel) rest
  have hname : Headers.fieldName (encode ("Received: ".toList ++ clause ++ "\r\n".toList)) =
    some "Received".toList := by
    simp only [Utf8.encode_append, List.append_assoc]
    unfold Headers.fieldName
    have hreceived : encode "Received: ".toList = encode "Received".toList ++
      [Headers.colon, 0x20] := by decide
    have hnone : (encode "Received".toList).findIdx? (· == Headers.colon) = none := by decide
    have hdecode : Utf8.decode ((encode "Received".toList).take 8) = some "Received".toList :=
      by decide +kernel
    rw [hreceived, List.append_assoc]
    generalize encode clause ++ encode "\r\n".toList = after
    have hfind : ([Headers.colon, 0x20] ++ after).findIdx? (· == Headers.colon) = some 0 := rfl
    rw [List.findIdx?_append, hnone, hfind]
    change ((Utf8.decode ((encode "Received".toList ++ _).take 8)).bind _) = _
    rw [List.take_append_of_le_length (by decide), hdecode]
    rfl
  have hlines : Lib.lines (· == lf) (encode ("Received: ".toList ++ clause ++ "\r\n\tby ".toList) ++ rest) =
      encode ("Received: ".toList ++ clause ++ "\r\n".toList) :: ([0x09, 0x62, 0x79, 0x20] ++
          line) :: ls := by
    rw [hraw, Lib.lines_append_of_ended hfirst, hsecond]
  obtain ⟨b, bytes, hb⟩ : ∃ b bytes, encode ("Received: ".toList ++ clause ++ "\r\n".toList) =
    0x52 :: b :: bytes := by
    simp only [Utf8.encode_append, List.append_assoc]
    exact ⟨_, _, rfl⟩
  obtain ⟨more, headers, rest', hmore⟩ := @splitLines_first ⟨"Received".toList,
    encode ("Received: ".toList ++ clause ++ "\r\n".toList) ++ ([0x09, 0x62, 0x79, 0x20] ++ line)⟩ [] ls
  refine ⟨line ++ more, headers, ?_⟩
  rw [fields_eq_splitLines, hlines]
  have hblank : Headers.isBlank (encode ("Received: ".toList ++ clause ++ "\r\n".toList)) = false := by
    rw [hb]
    rfl
  have hfolded : Headers.isFolded (encode ("Received: ".toList ++ clause ++ "\r\n".toList)) = false := by
    rw [hb]
    rfl
  have htext : encode ("Received: ".toList ++ clause ++ "\r\n\tby ".toList) ++ (line ++ more) =
      encode ("Received: ".toList ++ clause ++ "\r\n".toList) ++
          ([0x09, 0x62, 0x79, 0x20] ++ line) ++ more := by
    simp only [Utf8.encode_append, List.append_assoc]
    rfl
  rw [htext]
  conv_lhs => unfold splitLines
  rw [hblank, if_neg Bool.false_ne_true, hfolded, if_neg Bool.false_ne_true, hname]
  dsimp only
  have hsecondFolded : Headers.isBlank ([0x09, 0x62, 0x79, 0x20] ++ line) = false ∧
      Headers.isFolded ([0x09, 0x62, 0x79, 0x20] ++ line) = true := ⟨rfl, rfl⟩
  conv_lhs => unfold splitLines
  rw [hsecondFolded.1, if_neg Bool.false_ne_true, if_pos hsecondFolded.2]
  exact congrArg Prod.fst hmore

/-- Its value begins with the clause, and goes on with `by`. -/
theorem value_received (h : ∀ c ∈ clause, isPrintable c = true) (hne : clause ≠ [])
    (hhead : ∀ c ∈ clause.head?, c ≠ ' ') (hlast : ∀ c ∈ clause.getLast?, c ≠ ' ') (name : Text)
      (more : Bytes) :
    ∃ tail, Headers.RawHeader.value
        ⟨name, encode ("Received: ".toList ++ clause ++ "\r\n\tby ".toList) ++ more⟩ =
      clause ++ (" by".toList ++ tail) ∧ ∀ c ∈ tail.head?, c = ' ' := by
  have hprint : ∀ c ∈ clause, (c == '\r' || c == '\n') = false := by
    intro c hc
    cases hbreak : c == '\r' || c == '\n' with
    | false => rfl
    | true =>
      rcases Bool.or_eq_true_iff.1 hbreak with heq | heq
      · exact absurd (beq_iff_eq.1 heq ▸ h c hc) (by decide)
      · exact absurd (beq_iff_eq.1 heq ▸ h c hc) (by decide)
  have hkept : ∀ c ∈ clause, c ≠ ' ' → Headers.RawHeader.value.isAsciiWhitespace c = false := by
    intro c hc hblank
    unfold Headers.RawHeader.value.isAsciiWhitespace
    have hff : (c == Char.ofNat 0x0c) = false := beq_eq_false_iff_ne.2 fun heq =>
      absurd (heq ▸ h c hc) (by decide)
    have htab : (c == '\t') = false := beq_eq_false_iff_ne.2 fun heq => absurd (heq ▸ h c hc) (by decide)
    have hbreak := Bool.or_eq_false_iff.1 (hprint c hc)
    rw [beq_eq_false_iff_ne.2 hblank, htab, hbreak.1, hbreak.2, hff]
    rfl
  obtain ⟨m, hm⟩ := lossy_append ("Received: ".toList ++ clause ++ "\r\n\tby ".toList) more
  unfold Headers.RawHeader.value
  dsimp only
  rw [hm]
  have hvalue : ((("Received: ".toList ++ clause ++ "\r\n\tby ".toList ++ m).dropWhile (· != ':')).drop 1) =
      (' ' :: clause) ++ '\r' :: '\n' :: ('\t' :: 'b' :: 'y' :: ' ' :: m) := by
    have hreceived : "Received: ".toList = "Received".toList ++ [':', ' '] := by decide
    have hall : "Received".toList.all (· != ':') = true := by decide
    simp only [hreceived, List.append_assoc]
    rw [List.dropWhile_append_of_pos (List.all_eq_true.1 hall)]
    rfl
  rw [hvalue, List.splitOnP_append_cons_of_forall_mem (by
      intro c hc
      rcases List.mem_cons.1 hc with rfl | hc
      · rfl
      · exact hprint c hc) _ rfl]
  obtain ⟨line, lines, hsecond⟩ : ∃ line lines, ('\n' :: ('\t' :: 'b' :: 'y' :: ' ' :: m)).splitOnP
      (fun c => c == '\r' || c == '\n') = [] :: ('\t' :: 'b' :: 'y' :: ' ' :: line) :: lines := by
    obtain ⟨line, lines, hm⟩ := List.exists_cons_of_ne_nil
      (List.splitOnP_ne_nil (fun c => c == '\r' || c == '\n') m)
    refine ⟨line, lines, ?_⟩
    simp [List.splitOnP_cons_eq_if_modifyHead, hm]
  have htrim : Lib.trim Headers.RawHeader.value.isAsciiWhitespace (' ' :: clause) = clause := by
    change Lib.trim Headers.RawHeader.value.isAsciiWhitespace clause = clause
    refine Lib.trim_eq_self (fun c hc => ?_) fun c hc => ?_
    · exact hkept c (List.mem_of_mem_head? hc) (hhead c hc)
    · exact hkept c (List.mem_of_mem_getLast? hc) (hlast c hc)
  obtain ⟨t, ht, hblank⟩ : ∃ t, Lib.trim Headers.RawHeader.value.isAsciiWhitespace
    ('\t' :: 'b' :: 'y' :: ' ' :: line) =
      "by".toList ++ t ∧ ∀ c ∈ t.head?, c = ' ' := by
    change ∃ t, List.rdropWhile _ ("by".toList ++ ' ' :: line) = _ ∧ _
    have hprefix := List.rdropWhile_prefix Headers.RawHeader.value.isAsciiWhitespace (' ' :: line)
    unfold List.rdropWhile at hprefix ⊢
    rw [List.reverse_append, List.dropWhile_append]
    split
    · exact ⟨[], rfl, (nomatch ·, ·)⟩
    · refine ⟨_, by rw [List.reverse_append]; rfl, fun c hc => ?_⟩
      obtain ⟨u, hu⟩ := hprefix
      obtain ⟨t, ht⟩ := List.head?_eq_some_iff.1 hc
      rw [ht] at hu
      exact (List.cons.inj hu).1
  rw [hsecond, List.map_cons, List.map_cons, List.map_cons, htrim, ht,
    List.filter_cons_of_pos (by simp [hne]),
    List.filter_cons_of_neg (by decide), List.filter_cons_of_pos (by rfl), List.intercalate_cons_cons]
  change ∃ tail, clause ++ [' '] ++ [' '].intercalate (('b' :: 'y' :: t) :: _) = _ ∧ _
  rw [Lib.intercalate_cons_head, Lib.intercalate_cons_head, List.append_assoc]
  refine ⟨[' '].intercalate (t :: _), rfl, fun c hc => ?_⟩
  cases t with
  | nil =>
    generalize List.filter _ _ = pieces at hc
    cases pieces with
    | nil => cases hc
    | cons piece pieces =>
      rw [List.intercalate_cons_cons] at hc
      cases hc
      rfl
  | cons d t =>
    rw [Lib.intercalate_cons_head] at hc
    cases hc
    exact hblank _ rfl

end Field

/-! ## 3. The words of its value -/

section Parse

variable {needle a b text : Text} {c : Char}

theorem find_self (h : needle ≠ []) : find needle (needle ++ b) = some 0 := by
  obtain ⟨c, needle, rfl⟩ := List.exists_cons_of_ne_nil h
  exact if_pos (List.isPrefixOf_iff_prefix.2 (List.prefix_append _ _))

theorem find_cons_ne {d : Char} (h : c ≠ d) : find (c :: needle)
    (d :: b) = (find (c :: needle) b).map (· + 1) := by
  rw [find, if_neg]
  intro hprefix
  exact h (List.cons_prefix_cons.1 (List.isPrefixOf_iff_prefix.1 hprefix)).1

theorem find_skip (h : c ∉ a) : find (c :: needle) (a ++ b) = (find (c :: needle) b).map (· + a.length) := by
  induction a with
  | nil => simp
  | cons d a ih =>
    rw [List.mem_cons, not_or] at h
    rw [List.cons_append, find_cons_ne h.1, ih h.2, Option.map_map]
    rfl

theorem blank_notMem_lower (h : ' ' ∉ text) : ' ' ∉ lower text :=
  fun hmem => h ((Lib.mem_lower_iff (by unfold Lib.IsMark; decide)).1 hmem)

/-- **The clause ends no sooner than the comment.** -/
theorem find_by {tail : Text} (ha : ' ' ∉ a) (hb : ' ' ∉ b) :
    find " by ".toList (lower (a ++ (" (".toList ++ (b ++ tail)))) =
      (find " by ".toList (lower tail)).map (· + (a ++ (" (".toList ++ b)).length) := by
  have hparen : ' ' ∉ '(' :: lower b := by
    rw [List.mem_cons, not_or]
    exact ⟨by decide, blank_notMem_lower hb⟩
  rw [Lib.lower_append, Lib.lower_append, Lib.lower_append]
  change find (' ' :: "by ".toList) (lower a ++ ' ' :: ('(' :: lower b ++ lower tail)) =
    (find (' ' :: "by ".toList) _).map _
  have hnot : (' ' :: "by ".toList).isPrefixOf (' ' :: ('(' :: lower b ++ lower tail)) = false := rfl
  rw [find_skip (blank_notMem_lower ha), find, if_neg (by rw [hnot]; exact Bool.false_ne_true), find_skip hparen, Option.map_map, Option.map_map]
  refine congrArg (Option.map · _) (funext fun i => ?_)
  simp only [Function.comp, List.length_cons, List.length_append, Lib.lower, List.length_map]
  have hlen : " (".toList.length = 2 := rfl
  omega

theorem isWhitespace_of_range (hlow : 0x21 ≤ c.toNat) (hhigh : c.toNat ≤ 0x7e) : isWhitespace c = false := by
  unfold isWhitespace
  simp
  omega

theorem fromClause_from (text : Text) : fromClause ("from ".toList ++ text) =
    some (match find " by ".toList (lower text) with
      | some i => text.take i
      | none => text) := by
  have hlower : lower ("from ".toList ++ text) = "from ".toList ++ lower text := by
    rw [Lib.lower_append]
    exact congrArg (· ++ lower text) (by decide)
  have hdrop : ∀ text : Text, ("from ".toList ++ text).drop 5 = text := fun _ => rfl
  unfold fromClause
  dsimp only
  rw [hlower, find_self (by decide), Option.map_some, hdrop]
  cases find " by ".toList (lower text) with
  | none =>
    rw [List.take_length, hdrop]
  | some i =>
    dsimp only
    have htake : ("from ".toList ++ text).take (0 + 5 + i) = "from ".toList ++ text.take i := by
      have hlen : 0 + 5 + i = "from ".toList.length + i := rfl
      rw [hlen, List.take_length_add_append]
    rw [htake, hdrop]

/-- **The address is read from the comment.** -/
theorem parseReceivedFrom_named {helo tail : Text} {peer : IpAddr} (hne : helo ≠ [])
    (hhelo : ∀ c ∈ helo, isWhitespace c = false ∧ c ≠ '(') :
    parseReceivedFrom ("from ".toList ++ (helo ++ (" (".toList ++ ('[' :: (peer.display ++ "])".toList))) ++ tail)) =
      some (Lib.trim isBracket helo, peer.toCanonical) := by
  have haddress : ∀ c ∈ peer.display, IpAddr.isAddressChar c = true :=
    fun c hc => IpAddr.isAddressChar_of_mem_display hc
  have hby : find " by ".toList (lower (helo ++ (" (".toList ++ ('[' :: (peer.display ++ "])".toList))) ++ tail)) =
      (find " by ".toList (lower tail)).map (· +
        (helo ++ (" (".toList ++ ('[' :: (peer.display ++ "])".toList)))).length) := by
    rw [List.append_assoc, List.append_assoc]
    refine find_by (fun hmem => absurd (hhelo ' ' hmem).1 (by decide)) fun hmem => ?_
    rcases List.mem_cons.1 hmem with hmem | hmem
    · exact absurd hmem (by decide)
    · rcases List.mem_append.1 hmem with hmem | hmem
      · exact absurd (haddress ' ' hmem) (by decide)
      · exact absurd hmem (by decide)
  obtain ⟨u, hclause⟩ : ∃ u, fromClause ("from ".toList ++
    (helo ++ (" (".toList ++ ('[' :: (peer.display ++ "])".toList))) ++ tail)) =
      some (helo ++ (" (".toList ++ ('[' :: (peer.display ++ "])".toList))) ++ u) := by
    rw [fromClause_from, hby]
    cases find " by ".toList (lower tail) with
    | none => exact ⟨tail, rfl⟩
    | some i =>
      refine ⟨tail.take i, congrArg some ?_⟩
      rw [Option.map_some]
      dsimp only
      rw [Nat.add_comm, List.take_length_add_append]
  have hshape : helo ++ (" (".toList ++ ('[' :: (peer.display ++ "])".toList))) ++ u =
      (helo ++ [' ']) ++ '(' :: '[' :: (peer.display ++ ']' :: ')' :: u) := by
    simp only [List.append_assoc, List.cons_append]
    rfl
  have hhead : (words isWhitespace ((helo ++ [' ']) ++ '(' :: '[' :: (peer.display ++ ']' :: ')' :: u))).head? =
      some helo := by
    have hword : words isWhitespace helo = [helo] := by
      unfold Lib.words
      rw [List.splitOnP_eq_singleton fun c hc => (hhelo c hc).1]
      simp [hne]
    rw [List.append_assoc, List.singleton_append, Lib.words_append_break (by decide), hword]
    rfl
  have hparen : find ['('] ((helo ++ [' ']) ++ '(' :: '[' :: (peer.display ++ ']' :: ')' :: u)) =
      some (helo ++ [' ']).length := by
    rw [find_skip, show '(' :: '[' :: _ = ['('] ++ '[' :: (peer.display ++ ']' :: ')' :: u) from rfl,
      find_self (List.cons_ne_nil _ _), Option.map_some, Nat.zero_add]
    intro hmem
    rcases List.mem_append.1 hmem with hmem | hmem
    · exact (hhelo '(' hmem).2 rfl
    · exact absurd hmem (by decide)
  have hopen : find ['['] ('(' :: '[' :: (peer.display ++ ']' :: ')' :: u)) = some 1 := rfl
  have hclose : find [']'] (peer.display ++ ']' :: ')' :: u) = some peer.display.length := by
    rw [find_skip fun hmem => absurd (haddress ']' hmem) (by decide), show ']' :: ')' :: u = [']'] ++ ')' :: u from rfl,
      find_self (List.cons_ne_nil _ _), Option.map_some, Nat.zero_add]
  have hliteral : (('(' :: '[' :: (peer.display ++ ']' :: ')' :: u)).take (peer.display.length + 2)).drop 2 =
      peer.display := by
    rw [List.take_succ_cons, List.take_succ_cons, List.take_left]
    rfl
  have hblank : ∀ c, IpAddr.isAddressChar c = true → isWhitespace c = false := by
    intro c hc
    obtain ⟨hlow, hhigh⟩ := IpAddr.isAddressChar_range hc
    exact isWhitespace_of_range (by omega) (by omega)
  have htrim : Lib.trim isWhitespace peer.display = peer.display := Lib.trim_eq_self
    (fun c hc => hblank c (haddress c (List.mem_of_mem_head? hc)))
    fun c hc => hblank c (haddress c (List.mem_of_mem_getLast? hc))
  have hstrip : stripIpv6 peer.display = peer.display := by
    unfold stripIpv6
    cases hdisplay : peer.display with
    | nil => rfl
    | cons c rest =>
      rw [hdisplay] at haddress
      have hc := haddress c List.mem_cons_self
      have hupper : c ≠ 'I' := by
        rintro rfl
        exact absurd hc (by decide)
      have hlower : c ≠ 'i' := by
        rintro rfl
        exact absurd hc (by decide)
      refine if_neg fun h => ?_
      rcases Bool.or_eq_true_iff.1 h with h | h
      · exact hupper (List.cons_prefix_cons.1 (List.isPrefixOf_iff_prefix.1 h)).1.symm
      · exact hlower (List.cons_prefix_cons.1 (List.isPrefixOf_iff_prefix.1 h)).1.symm
  unfold parseReceivedFrom
  simp only [Option.bind_eq_bind]
  rw [hclause, hshape, Option.bind_some, hhead, Option.bind_some, hparen, Option.bind_some,
    List.drop_left, hopen,
    Option.bind_some]
  change ((find [']'] (peer.display ++ _)).bind _) = _
  rw [hclose, Option.bind_some]
  change (IpAddr.parse (stripIpv6 (Lib.trim isWhitespace
    ((('(' :: '[' :: _).take (peer.display.length + 2)).drop 2)))).bind _ = _
  rw [hliteral, htrim, hstrip, IpAddr.parse_display]
  rfl

/-- Where the client stays private there is no comment. -/
theorem parseReceivedFrom_private {tail : Text} (h : ∀ c ∈ tail.head?, c = ' ') :
    parseReceivedFrom ("from ".toList ++ ("localhost".toList ++ (" by".toList ++ tail))) = none := by
  have hclause : fromClause ("from ".toList ++ ("localhost".toList ++ (" by".toList ++ tail))) =
    some "localhost".toList ∨
      fromClause ("from ".toList ++ ("localhost".toList ++ (" by".toList ++ tail))) =
          some "localhost by".toList := by
    rw [fromClause_from]
    cases tail with
    | nil => exact .inr (by decide)
    | cons c tail =>
      obtain rfl : c = ' ' := h c rfl
      have hby : find " by ".toList (lower ("localhost".toList ++ (" by".toList ++ ' ' :: tail))) =
          some 9 := by
        have hlower : lower ("localhost".toList ++ (" by".toList ++ ' ' :: tail)) =
            "localhost".toList ++ (" by ".toList ++ lower tail) := by
          have hlocal : lower "localhost".toList = "localhost".toList := by decide
          have hby : lower " by".toList = " by".toList := by decide
          rw [Lib.lower_append, Lib.lower_append, hlocal, hby]
          rfl
        change find (' ' :: "by ".toList) _ = _
        rw [hlower, find_skip (by decide)]
        change (find " by ".toList (" by ".toList ++ lower tail)).map _ = _
        rw [find_self (by decide)]
        rfl
      rw [hby]
      exact .inl rfl
  unfold parseReceivedFrom
  simp only [Option.bind_eq_bind]
  rcases hclause with hclause | hclause
  · rw [hclause]
    decide
  · rw [hclause]
    decide

end Parse

/-! ## 4. The result -/

section Result

variable {helo : Text} {c : Char}

theorem mem_heloInner (h : c ∈ helo) : c ∈ heloInner helo ∨ isBracket c = true := by
  unfold heloInner
  split
  · rename_i rest
    split
    · rename_i hlast
      obtain ⟨init, rfl⟩ := List.getLast?_eq_some_iff.1 hlast
      rw [List.dropLast_concat]
      rcases List.mem_cons.1 h with rfl | h
      · exact .inr rfl
      · rcases List.mem_append.1 h with h | h
        · exact .inl h
        · obtain rfl := List.mem_singleton.1 h
          exact .inr rfl
    · exact .inl h
  · exact .inl h

/-- **A greeting is one word, without a parenthesis.** -/
theorem traceHelo_spec (helo : Text) : traceHelo helo ≠ [] ∧
    ∀ c ∈ traceHelo helo, 0x21 ≤ c.toNat ∧ c.toNat ≤ 0x7e ∧ c ≠ '(' := by
  have hchar : ∀ c, isHeloChar c = true ∨ isBracket c = true → 0x21 ≤ c.toNat ∧ c.toNat ≤ 0x7e ∧ c ≠ '(' := by
    intro c hc
    have hparen : c ≠ '(' := by
      rintro rfl
      exact absurd hc (by decide)
    refine and_assoc.1 ⟨?_, hparen⟩
    rcases hc with hc | hc
    · unfold isHeloChar at hc
      simp only [Bool.or_eq_true, beq_iff_eq] at hc
      rcases hc with (((hc | rfl) | rfl) | rfl) | rfl
      · simp only [Char.isAlphanum, Char.isAlpha, Char.isUpper, Char.isLower, Char.isDigit, Bool.or_eq_true,
          Bool.and_eq_true, decide_eq_true_eq, ge_iff_le, UInt32.le_iff_toNat_le] at hc
        change ((65 ≤ c.toNat ∧ c.toNat ≤ 90) ∨ (97 ≤ c.toNat ∧ c.toNat ≤ 122)) ∨
          (48 ≤ c.toNat ∧ c.toNat ≤ 57) at hc
        omega
      all_goals decide
    · unfold isBracket at hc
      rcases Bool.or_eq_true_iff.1 hc with hc | hc
      · rw [beq_iff_eq.1 hc]
        decide
      · rw [beq_iff_eq.1 hc]
        decide
  unfold traceHelo
  split
  · rename_i hplain
    refine ⟨?_, fun c hc => hchar c ?_⟩
    · rintro rfl
      exact hplain.1 rfl
    · exact (mem_heloInner hc).imp_left (List.all_eq_true.1 hplain.2 c)
  · refine ⟨by decide, fun c hc => hchar c (.inl ?_)⟩
    have hall : "unknown".toList.all isHeloChar = true := by decide
    exact List.all_eq_true.1 hall c hc

theorem receivedFrom_spec (helo : Text) (peer : Option IpAddr) :
    (∀ c ∈ receivedFrom helo peer, isPrintable c = true) ∧
    receivedFrom helo peer ≠ [] ∧ (∀ c ∈ (receivedFrom helo peer).head?, c ≠ ' ') ∧
      ∀ c ∈ (receivedFrom helo peer).getLast?, c ≠ ' ' := by
  have hrange : ∀ c : Char, 0x20 ≤ c.toNat → c.toNat ≤ 0x7e → isPrintable c = true := by
    intro c hlow hhigh
    unfold isPrintable
    rw [Bool.and_eq_true, decide_eq_true_eq, decide_eq_true_eq]
    exact ⟨hlow, hhigh⟩
  cases peer with
  | none =>
    have hall : "from localhost".toList.all isPrintable = true := by decide
    have hlocal : receivedFrom helo none = "from localhost".toList := rfl
    rw [hlocal]
    refine ⟨List.all_eq_true.1 hall, by decide, fun c hc => ?_, fun c hc => ?_⟩
    · cases hc
      decide
    · cases hc
      decide
  | some peer =>
    have hfrom : "from ".toList.all isPrintable = true := by decide
    have hopen : " ([".toList.all isPrintable = true := by decide
    have hclose : "])".toList.all isPrintable = true := by decide
    unfold receivedFrom
    refine ⟨fun c hc => ?_, ?_, ?_, ?_⟩
    · simp only [List.mem_append] at hc
      rcases hc with (((hc | hc) | hc) | hc) | hc
      · exact List.all_eq_true.1 hfrom c hc
      · have := (traceHelo_spec helo).2 c hc
        exact hrange c (by omega) (by omega)
      · exact List.all_eq_true.1 hopen c hc
      · have := IpAddr.isAddressChar_range (IpAddr.isAddressChar_of_mem_display hc)
        exact hrange c (by omega) (by omega)
      · exact List.all_eq_true.1 hclose c hc
    · simp
    · intro c hc
      cases hc
      decide
    · intro c hc
      rw [List.getLast?_append_of_ne_nil _ (by decide)] at hc
      cases hc
      decide

/-- A hop of a trusted relay. -/
def passes (trusted : List IpNetwork) (value : Text) : Bool :=
  (parseReceivedFrom value).any fun read => isTrusted trusted read.2

variable {trusted : List IpNetwork}

theorem walk_passes {above below : List Text} (h : ∀ value ∈ above, passes trusted value = true) :
    walk trusted (above ++ below) = walk trusted below := by
  induction above with
  | nil => rfl
  | cons value above ih =>
    have hvalue := h value List.mem_cons_self
    rw [List.cons_append, walk]
    unfold passes at hvalue
    cases hread : parseReceivedFrom value with
    | none =>
      rw [hread] at hvalue
      cases hvalue
    | some read =>
      rw [hread] at hvalue
      change isTrusted trusted read.2 = true at hvalue
      dsimp only
      rw [hvalue]
      exact ih fun v hv => h v (List.mem_cons_of_mem _ hv)

/-- **The walk ends at the first hop that does not pass**, with what is read there. -/
theorem walk_stops {value : Text} (h : passes trusted value = false) (below : List Text) :
    walk trusted (value :: below) = (parseReceivedFrom value).map fun read => (read.2, read.1) := by
  unfold passes at h
  rw [walk]
  cases hread : parseReceivedFrom value with
  | none => rfl
  | some read =>
    rw [hread] at h
    change isTrusted trusted read.2 = false at h
    dsimp only
    rw [h]
    rfl

/-- The header on top is the first hop. -/
theorem hops_received (client : Client) (stamp : Stamp) (message : Bytes) : ∃ tail below,
    hops (encode (receivedHeader client stamp) ++ message) =
        (receivedFrom (client.helo.getD []) (if client.isPrivate stamp then none else some client.peer) ++
          (" by".toList ++ tail)) :: below ∧ ∀ c ∈ tail.head?, c = ' ' := by
  obtain ⟨rest, hrest⟩ : ∃ rest, receivedHeader client stamp = "Received: ".toList ++
      receivedFrom (client.helo.getD []) (if client.isPrivate stamp then none else some client.peer) ++
        "\r\n\tby ".toList ++ rest := by
    unfold receivedHeader
    simp only [List.append_assoc]
    exact ⟨_, rfl⟩
  rw [hrest, Utf8.encode_append, List.append_assoc]
  generalize (if client.isPrivate stamp then none else some client.peer) = peer
  obtain ⟨hprint, hne, hhead, hlast⟩ := receivedFrom_spec (client.helo.getD []) peer
  obtain ⟨more, headers, hfields⟩ := fields_received hprint (encode rest ++ message)
  obtain ⟨tail, hvalue, htail⟩ := value_received hprint hne hhead hlast "Received".toList more
  have hnamed : ∀ raw, Headers.named ["Received"] ⟨"Received".toList, raw⟩ = true := by
    intro raw
    have hsame : Headers.eqIgnoreAsciiCase "Received".toList "Received".toList = true := by decide
    unfold Headers.named
    rw [List.any_cons, hsame, Bool.true_or]
  refine ⟨tail, (headers.filter (Headers.named ["Received"])).map Headers.RawHeader.value, ?_, htail⟩
  unfold hops
  rw [hfields, List.filter_cons_of_pos (hnamed _), List.map_cons, hvalue]

/-- **A greeting cannot forge the address of the client.**  The header this server writes is read as
the address it saw, or as none where the client stays private; and what stands below the first hop
that does not pass is never read. -/
theorem client_is_not_forged (trusted : List IpNetwork) :
    (∀ (client : Client) (stamp : Stamp) (message : Bytes), isTrusted trusted client.peer = false →
      originalClient (encode (receivedHeader client stamp) ++ message) trusted =
        if client.isPrivate stamp then none
        else some (client.peer, Lib.trim isBracket (traceHelo (client.helo.getD [])))) ∧
    (∀ raw above value below, hops raw = above ++ value :: below → (∀ v ∈ above, passes trusted v = true) →
      passes trusted value = false →
      originalClient raw trusted = (parseReceivedFrom value).map fun read => (read.2, read.1)) ∧
    ∀ raw, (∀ value ∈ hops raw, passes trusted value = true) → originalClient raw trusted = none := by
  refine ⟨fun client stamp message htrust => ?_, fun raw above value below hhops habove hvalue =>
    ?_, fun raw hall => ?_⟩
  · obtain ⟨tail, below, hhops, htail⟩ := hops_received client stamp message
    unfold originalClient
    rw [hhops]
    cases hprivate : client.isPrivate stamp with
    | true =>
      have hread : parseReceivedFrom (receivedFrom (client.helo.getD []) none ++
          (" by".toList ++ tail)) = none :=
        parseReceivedFrom_private htail
      rw [if_pos rfl, if_pos rfl, walk, hread]
    | false =>
      obtain ⟨hne, hchars⟩ := traceHelo_spec (client.helo.getD [])
      have hread : parseReceivedFrom (receivedFrom (client.helo.getD []) (some client.peer) ++
        (" by".toList ++ tail)) =
          some (Lib.trim isBracket (traceHelo (client.helo.getD [])), client.peer.toCanonical) := by
        unfold receivedFrom
        simp only [List.append_assoc]
        have hnamed := @parseReceivedFrom_named _ (" by".toList ++ tail) client.peer hne fun c hc =>
          ⟨isWhitespace_of_range (hchars c hc).1 (hchars c hc).2.1, (hchars c hc).2.2⟩
        simp only [List.append_assoc, List.cons_append] at hnamed
        exact hnamed
      have hcanonical : client.peer.toCanonical = client.peer := IpAddr.toCanonical_toCanonical _
      rw [hcanonical] at hread
      rw [if_neg Bool.false_ne_true, if_neg Bool.false_ne_true, walk_stops, hread]
      · rfl
      · unfold passes
        rw [hread]
        exact htrust
  · unfold originalClient
    rw [hhops, walk_passes habove, walk_stops hvalue]
  · have hend := @walk_passes _ _ [] hall
    rw [List.append_nil] at hend
    exact hend

/-- A phone that greets with the address of another. -/
def phone : Client where
  socket := .v6 ⟨[0, 0, 0, 0, 0, 0xffff, 0xcb00, 0x7107], rfl⟩
  helo := some "([192.0.2.1])".toList
  tls := none
  submitted := false

def stamp : Stamp where
  hostname := "mx.example.com".toList
  revealClientIp := false
  id := ['1']
  recipient := none
  date := "Thu, 24 Sep 2026 10:00:00 +0000".toList

/-- A hop that cannot be read, above one that can. -/
def delivered : Bytes := encode "Received: by b\r\nReceived: from x ([1.2.3.4])\r\n".toList

/-- The networks whose relays are trusted. -/
def office : List IpNetwork := [⟨.v4 ⟨10, 0, 0, 0⟩, 8⟩]

theorem phone_is_not_forged :
    originalClient (encode (receivedHeader phone stamp) ++ encode "Subject: x\r\n\r\n".toList) office =
      some (.v4 ⟨203, 0, 113, 7⟩, "unknown".toList) ∧
    originalClient delivered office = none ∧ originalClient [] office = none := by
  refine ⟨(client_is_not_forged office).1 phone stamp _ rfl,
    (client_is_not_forged office).2.1 delivered [] "by b".toList ["from x ([1.2.3.4])".toList] ?_
      (nomatch ·, ·) rfl,
    (client_is_not_forged office).2.2 [] fun value hvalue => ?_⟩
  · unfold hops
    rw [fields_eq_splitLines]
    decide +kernel
  · have hnone : hops [] = [] := by
      unfold hops
      rw [fields_eq_splitLines]
      rfl
    rw [hnone] at hvalue
    cases hvalue

end Result

end UwuMail.Smtp.Relay
