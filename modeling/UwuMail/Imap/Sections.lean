/-
# Sections are cut inside the message

The scan of `Mime` hands ranges down, from a part to the parts inside it, and the three operations
it cuts with stay inside what they are given: the header ends inside its part (`headerEnd_le`), and
the pieces of a multipart lie in its body, behind its first boundary line, one after the other
(`splitLoop_ranges`).  With these two, ONE induction on the levels that are left says everything
about the tree (`part_scans`): where its parts lie, how deep they are, and how many were counted.

The number of parts the tree HAS is not the number of parts that were scanned.  A multipart in which
no part was found gets one that was never counted, so the tree may have twice as many
(`empty_multiparts` is a message with `k` such multiparts), and no more than that.
-/
import UwuMail.Imap.Mime

namespace UwuMail.Mime

open Utf8 (encode)
open Imap.Byte (cr lf)

/-! ## 1. What FETCH cuts out of a message -/

/-- A number of a section, which is not zero (`nz_number32`). -/
abbrev PartNumber := { n : Nat // n ≠ 0 }

inductive SectionText where
  | header
  | headerFields (names : List (List Char))
  | headerFieldsNot (names : List (List Char))
  | text
  | mime

structure Section where
  part : List PartNumber
  text : Option SectionText

/-- Where the process would stop. -/
inductive Fault where
  | outOfBounds
  | unreachable

/-- `raw[range]`. -/
def index (raw : List UInt8) (range : Span) : Except Fault (List UInt8) :=
  if range.start ≤ range.stop ∧ range.stop ≤ raw.length then .ok (slice raw range) else .error .outOfBounds

namespace Part

/-- The loop of `find`. -/
def findFrom : Part → Nat → List PartNumber → Option Part
  | current, _, [] => some current
  | current, depth, number :: path =>
    let container := match current.message with
      | some message => if depth > 0 then message else current
      | none => current
    if container.heading.isMultipart then
      match container.children[number.1 - 1]? with
      | some child => child.findFrom (depth + 1) path
      | none => none
    else if number.1 = 1 then container.findFrom (depth + 1) path
    else none

/-- The part with the IMAP part number `path` (like `[1, 2]` for `1.2`). -/
def find (p : Part) (path : List PartNumber) : Option Part := p.findFrom 0 path

end Part

/-- The fields of a header that are named, or those that are not. -/
def pickFields (found : List Field) (names : List (List Char)) (keep : Bool) : List UInt8 :=
  (found.flatMap fun field =>
    if names.any (fun name => lower name == lower field.name) == keep then
      if field.raw.getLast? == some lf then field.raw else field.raw ++ [cr, lf]
    else []) ++ [cr, lf]

/-- The bytes a section names, or `none` when the message has no such part (they are sent as
empty). -/
def sectionBytes (raw : List UInt8) (root : Part) (s : Section) : Except Fault (Option (List UInt8)) :=
  match root.find s.part with
  | none => .ok none
  | some p =>
    match s.text, s.part with
    | none, [] => .ok (some raw)
    | none, _ :: _ => do return some (← index raw p.body)
    | some .mime, _ => do return some (← index raw p.header)
    | some wanted, path =>
      match (if path.isEmpty then some root else p.message) with
      | none => .ok none
      | some q =>
        match wanted with
        | .header => do return some (← index raw q.header)
        | .text => do return some (← index raw q.body)
        | .headerFields names => do
          let _ ← index raw q.header
          return some (pickFields (fields raw q.header) names true)
        | .headerFieldsNot names => do
          let _ ← index raw q.header
          return some (pickFields (fields raw q.header) names false)
        | .mime => .error .unreachable

/-- What FETCH sends for a section, and for `<origin.count>` of it. -/
def fetchSection (raw : List UInt8) (root : Part) (s : Section) (range : Option (Nat × Nat)) :
    Except Fault (List UInt8) := do
  let bytes := (← sectionBytes raw root s).getD []
  match range with
  | none => return bytes
  | some (origin, count) =>
    let start := min origin bytes.length
    let stop := min (start + count) bytes.length
    index bytes ⟨start, stop⟩

/-! ## 2. The parts of a tree -/

namespace Part

/-- `q` is in `p`, this many levels below it. -/
inductive Holds : Part → Nat → Part → Prop
  | here {p : Part} : Holds p 0 p
  | child {p c q : Part} {depth : Nat} (hc : c ∈ p.children) (h : Holds c depth q) : Holds p (depth + 1) q
  | message {p m q : Part} {depth : Nat} (hm : p.message = some m) (h : Holds m depth q) :
    Holds p (depth + 1) q

/-- The part that shows the body of a multipart in which nothing was found. -/
def standsIn (h : Heading) (p : Part) : Bool := p.header == ⟨h.body.start, h.body.start⟩ && p.body == h.body

mutual

/-- The number of parts. -/
def count : Part → Nat
  | mk _ children message _ => countAll children + countIn message + 1

def countAll : List Part → Nat
  | [] => 0
  | p :: parts => p.count + countAll parts

def countIn : Option Part → Nat
  | none => 0
  | some p => p.count

end

mutual

/-- The number of parts that were scanned. -/
def scanned : Part → Nat
  | mk h children message _ => scannedAll h children + scannedIn message + 1

def scannedAll (h : Heading) : List Part → Nat
  | [] => 0
  | p :: parts => (if standsIn h p then 0 else p.scanned) + scannedAll h parts

def scannedIn : Option Part → Nat
  | none => 0
  | some p => p.scanned

end

end Part

/-- A range that lies in the message. -/
def Span.In (range : Span) (raw : List UInt8) : Prop := range.start ≤ range.stop ∧ range.stop ≤ raw.length

/-- What FETCH relies on at a part. -/
structure Part.Placed (raw : List UInt8) (p : Part) : Prop where
  header : p.header.In raw
  body : p.body.In raw
  joined : p.header.stop = p.body.start
  children : ∀ c ∈ p.children, p.body.start ≤ c.header.start ∧ c.body.stop ≤ p.body.stop
  apart : p.children.Pairwise fun c d => c.body.stop ≤ d.header.start
  message : ∀ m, p.message = some m → m.header.start = p.body.start ∧ m.body.stop = p.body.stop

section
variable {raw bytes delimiter : List UInt8} {range body : Span} {p q c m : Part} {h : Heading}
  {depth : Nat}

/-! ## 3. The cuts stay inside -/

theorem length_slice (hin : range.In raw) : (slice raw range).length = range.stop - range.start := by
  unfold slice
  rw [List.length_drop, List.length_take, min_eq_left hin.2]

theorem emptyLine_le : ∀ {bytes : List UInt8} {i j : Nat}, emptyLine bytes i = some j → j ≤ i + bytes.length
  | [], i, j, h => by cases h
  | b :: bytes, i, j, h => by
    unfold emptyLine at h
    split at h
    next hstop =>
      have hlen := (List.isPrefixOf_iff_prefix.1 (Bool.and_eq_true_iff.1 hstop).2).length_le
      simp only [List.length_cons, List.length_nil] at hlen ⊢
      have := Option.some.inj h
      omega
    next =>
      split at h
      next hstop =>
        have hlen := (List.isPrefixOf_iff_prefix.1 (Bool.and_eq_true_iff.1 hstop).2).length_le
        simp only [List.length_cons, List.length_nil] at hlen ⊢
        have := Option.some.inj h
        omega
      next =>
        have ih := emptyLine_le h
        simp only [List.length_cons]
        omega

/-- **The header ends inside its part.** -/
theorem headerEnd_le (hin : range.In raw) : range.start ≤ headerEnd raw range ∧
    headerEnd raw range ≤ range.stop := by
  have hlen := length_slice hin
  have hle := hin.1
  unfold headerEnd
  dsimp only
  split
  next hstop =>
    have := (List.isPrefixOf_iff_prefix.1 hstop).length_le
    simp only [List.length_cons, List.length_nil] at this
    omega
  next =>
    split
    next hstop =>
      have := (List.isPrefixOf_iff_prefix.1 hstop).length_le
      simp only [List.length_cons, List.length_nil] at this
      omega
    next =>
      split
      next i hi =>
        have := emptyLine_le hi
        omega
      next => omega

theorem flatten_cutAfter (ends : UInt8 → List UInt8 → Bool) : (cutAfter ends bytes).flatten = bytes := by
  induction bytes with
  | nil => rfl
  | cons b bytes ih =>
    unfold cutAfter
    split
    · rw [List.flatten_cons, ih]
      rfl
    · cases hcut : cutAfter ends bytes with
      | nil =>
        rw [hcut] at ih
        simpa using ih
      | cons piece pieces =>
        rw [hcut] at ih
        simpa using ih

theorem partStop_le (start lineStart : Nat) : partStop bytes start lineStart ≤ lineStart := by
  unfold partStop
  split
  · split <;> omega
  · exact le_rfl

theorem length_of_boundaryLine {line : List UInt8} {closing : Bool}
    (hline : boundaryLine delimiter line = some closing) : delimiter.length ≤ line.length := by
  unfold boundaryLine at hline
  split at hline
  next hstart => exact (List.isPrefixOf_iff_prefix.1 hstart).length_le
  next => cases hline

/-- **The pieces of a multipart** lie in its body, behind where the scan stands or where the open
piece began, one after the other. -/
theorem splitLoop_ranges (hlen : body.start + bytes.length = body.stop) (hne : delimiter ≠ []) :
    ∀ {lines : List (List UInt8)} {lineStart : Nat} {partStart : Option Nat},
      lineStart + lines.flatten.length = bytes.length → (∀ s, partStart = some s → 0 < s ∧ s ≤ lineStart) →
      (∀ r ∈ splitLoop bytes body delimiter lines lineStart partStart,
        body.start < r.start ∧ body.start + partStart.getD lineStart ≤ r.start ∧ r.start ≤ r.stop ∧
          r.stop ≤ body.stop) ∧
        (splitLoop bytes body delimiter lines lineStart partStart).Pairwise fun r s => r.stop ≤ s.start
  | [], lineStart, none, _, _ => by simp [splitLoop]
  | [], lineStart, some start, hsum, hopen => by
    obtain ⟨hpos, hle⟩ := hopen start rfl
    simp only [List.flatten_nil, List.length_nil] at hsum
    simp only [splitLoop, List.mem_singleton, forall_eq, Option.getD_some, List.pairwise_singleton, and_true]
    omega
  | line :: lines, lineStart, partStart, hsum, hopen => by
    rw [List.flatten_cons, List.length_append] at hsum
    unfold splitLoop
    cases hline : boundaryLine delimiter line with
    | none =>
      obtain ⟨hall, hapart⟩ := @splitLoop_ranges hlen hne lines (lineStart + line.length) partStart (by omega) fun s hs => ⟨(hopen s hs).1, by have := (hopen s hs).2; omega⟩
      refine ⟨fun r hr => ?_, hapart⟩
      obtain ⟨h₁, h₂, h₃, h₄⟩ := hall r hr
      refine ⟨h₁, ?_, h₃, h₄⟩
      cases partStart with
      | none =>
        simp only [Option.getD_none] at h₂ ⊢
        omega
      | some start => exact h₂
    | some closing =>
      have hpos : 0 < line.length :=
        lt_of_lt_of_le (List.length_pos_iff.2 hne) (length_of_boundaryLine hline)
      have hpart : ∀ r ∈ partStart.toList.map fun start =>
          (⟨body.start + start, body.start + max (partStop bytes start lineStart) start⟩ : Span),
          body.start < r.start ∧ body.start + partStart.getD lineStart ≤ r.start ∧ r.start ≤ r.stop ∧
            r.stop ≤ body.start + lineStart := by
        intro r hr
        obtain ⟨start, hstart, rfl⟩ := List.mem_map.1 hr
        obtain rfl := Option.mem_toList.1 hstart
        have hstop := @partStop_le bytes start lineStart
        obtain ⟨h₁, h₂⟩ := hopen start rfl
        simp only [Option.getD_some]
        omega
      cases closing with
      | true =>
        simp only [↓reduceIte]
        refine ⟨fun r hr => ?_, ?_⟩
        · obtain ⟨h₁, h₂, h₃, h₄⟩ := hpart r hr
          exact ⟨h₁, h₂, h₃, by omega⟩
        · cases partStart <;> simp
      | false =>
        simp only [Bool.false_eq_true, ↓reduceIte]
        obtain ⟨hall, hapart⟩ := @splitLoop_ranges hlen hne lines (lineStart + line.length)
          (some (lineStart + line.length)) (by omega) fun s hs => by
            cases hs
            omega
        simp only [Option.getD_some] at hall
        refine ⟨fun r hr => ?_, ?_⟩
        · rcases List.mem_append.1 hr with hr | hr
          · obtain ⟨h₁, h₂, h₃, h₄⟩ := hpart r hr
            exact ⟨h₁, h₂, h₃, by omega⟩
          · obtain ⟨h₁, h₂, h₃, h₄⟩ := hall r hr
            refine ⟨h₁, ?_, h₃, h₄⟩
            cases partStart with
            | none =>
              simp only [Option.getD_none]
              omega
            | some start =>
              have := (hopen start rfl).2
              simp only [Option.getD_some]
              omega
        · refine List.pairwise_append.2 ⟨?_, hapart, fun r hr s hs => ?_⟩
          · cases partStart <;> simp
          · have h₁ := (hpart r hr).2.2.2
            have h₂ := (hall s hs).2.1
            omega

theorem ranges_placed (hbody : h.body.In raw) :
    (∀ r ∈ h.ranges raw, h.body.start < r.start ∧ r.start ≤ r.stop ∧ r.stop ≤ h.body.stop) ∧
      (h.ranges raw).Pairwise fun r s => r.stop ≤ s.start := by
  unfold Heading.ranges
  cases h.boundary with
  | none => simp
  | some boundary =>
    have hlen : h.body.start + (slice raw h.body).length = h.body.stop := by
      have := hbody.1
      rw [length_slice hbody]
      omega
    have hne : encode ('-' :: '-' :: boundary) ≠ [] := by
      obtain ⟨b, bytes, h, -⟩ := Utf8.encode_cons_cases '-' ('-' :: boundary)
      rw [h]
      exact List.cons_ne_nil _ _
    obtain ⟨hall, hapart⟩ := @splitLoop_ranges _ _ _ hlen hne
      (cutAfter (fun b _ => b == lf) (slice raw h.body)) 0 none
      (by rw [flatten_cutAfter, Nat.zero_add]) (fun _ h => by cases h)
    exact ⟨fun r hr => ⟨(hall r hr).1, (hall r hr).2.2⟩, hapart⟩

theorem readHeading_placed {default : List Char × List Char} (hin : range.In raw) :
    (readHeading raw range default).header.start = range.start ∧
      (readHeading raw range default).header.In raw ∧ (readHeading raw range default).body.In raw ∧
      (readHeading raw range default).header.stop = (readHeading raw range default).body.start ∧
      (readHeading raw range default).body.stop = range.stop := by
  obtain ⟨h₁, h₂⟩ := headerEnd_le hin
  exact ⟨rfl, ⟨h₁, h₂.trans hin.2⟩, ⟨h₂, hin.2⟩, rfl, rfl⟩

/-! ## 4. The scan -/

/-- What the scan of a range gives when `parts` were scanned before. -/
structure Scans (raw : List UInt8) (levels : Nat) (range : Span) (parts : Nat)
    (result : Part × Nat) : Prop where
  start : result.1.header.start = range.start
  stop : result.1.body.stop = range.stop
  placed : ∀ depth q, result.1.Holds depth q → q.Placed raw ∧ depth ≤ levels
  counted : result.2 = parts + result.1.scanned
  limited : result.2 ≤ max maxParts (parts + 1)
  twice : result.1.count ≤ 2 * result.1.scanned

theorem Part.holds_iff : p.Holds depth q ↔ (depth = 0 ∧ q = p) ∨ ∃ below, depth = below + 1 ∧
    ((∃ c ∈ p.children, c.Holds below q) ∨ ∃ m, p.message = some m ∧ m.Holds below q) := by
  constructor
  · intro h
    cases h with
    | here => exact .inl ⟨rfl, rfl⟩
    | child hc h => exact .inr ⟨_, rfl, .inl ⟨_, hc, h⟩⟩
    | message hm h => exact .inr ⟨_, rfl, .inr ⟨_, hm, h⟩⟩
  · rintro (⟨rfl, rfl⟩ | ⟨below, rfl, ⟨c, hc, h⟩ | ⟨m, hm, h⟩⟩)
    · exact .here
    · exact .child hc h
    · exact .message hm h

theorem scannedAll_eq {parts : List Part} (h' : ∀ p ∈ parts, Part.standsIn h p = false) :
    Part.scannedAll h parts = (parts.map Part.scanned).sum := by
  induction parts with
  | nil => rfl
  | cons p parts ih =>
    rw [Part.scannedAll, h' p List.mem_cons_self, ih fun q hq => h' q (List.mem_cons_of_mem _ hq)]
    rfl

theorem countAll_eq (parts : List Part) : Part.countAll parts = (parts.map Part.count).sum := by
  induction parts with
  | nil => rfl
  | cons p parts ih => rw [Part.countAll, ih, List.map_cons, List.sum_cons]

/-- A part whose header and body were read, with nothing inside it. -/
theorem leaf_placed {lines : Nat} (hheader : h.header.In raw) (hbody : h.body.In raw)
    (hjoined : h.header.stop = h.body.start) : (Part.mk h [] none lines).Placed raw where
  header := hheader
  body := hbody
  joined := hjoined
  children := fun c hc => by cases hc
  apart := .nil
  message := fun m hm => by cases hm

theorem leaf_scans {levels parts : Nat} {default : List Char × List Char} (hin : range.In raw) :
    Scans raw levels range parts (leaf raw (readHeading raw range default), parts + 1) := by
  obtain ⟨hstart, hheader, hbody, hjoined, hstop⟩ := @readHeading_placed _ _ default hin
  constructor
  · exact hstart
  · exact hstop
  · intro depth q hq
    rcases Part.holds_iff.1 hq with ⟨rfl, rfl⟩ | ⟨below, rfl, ⟨c, hc, -⟩ | ⟨m, hm, -⟩⟩
    · exact ⟨leaf_placed hheader hbody hjoined, Nat.zero_le _⟩
    · cases hc
    · cases hm
  · rfl
  · exact le_max_right _ _
  · show 0 + 0 + 1 ≤ 2 * (0 + 0 + 1)
    omega

/-- **The loop over the ranges of a multipart**, when the scan of each is as it should be. -/
theorem scanRanges_scans {scan : Span → Nat → Part × Nat} {levels : Nat}
    (hscan : ∀ {r : Span} {parts : Nat}, r.In raw → Scans raw levels r parts (scan r parts)) :
    ∀ {ranges : List Span} {parts : Nat}, (∀ r ∈ ranges, r.In raw) →
      (ranges.Pairwise fun r s => r.stop ≤ s.start) → parts ≤ maxParts →
      (∀ c ∈ (scanRanges scan ranges parts).1, ∃ r ∈ ranges, c.header.start = r.start ∧
        c.body.stop = r.stop) ∧
      ((scanRanges scan ranges parts).1.Pairwise fun c d => c.body.stop ≤ d.header.start) ∧
      (∀ c ∈ (scanRanges scan ranges parts).1, ∀ depth q, c.Holds depth q → q.Placed raw ∧ depth ≤ levels) ∧
      (scanRanges scan ranges parts).2 = parts + ((scanRanges scan ranges parts).1.map Part.scanned).sum ∧
      (scanRanges scan ranges parts).2 ≤ maxParts ∧
      ((scanRanges scan ranges parts).1.map Part.count).sum ≤
        2 * ((scanRanges scan ranges parts).1.map Part.scanned).sum
  | [], parts, _, _, hparts => by simpa [scanRanges] using hparts
  | r :: ranges, parts, hin, hapart, hparts => by
    unfold scanRanges
    split
    · simpa using hparts
    next hroom =>
      dsimp only
      have hc := @hscan r parts (hin r List.mem_cons_self)
      obtain ⟨hbefore, hapart⟩ := List.pairwise_cons.1 hapart
      have hmore : (scan r parts).2 ≤ maxParts := hc.limited.trans (by omega)
      obtain ⟨hfrom, hpair, hplaced, hcounted, hlimited, htwice⟩ :=
        scanRanges_scans hscan (fun s hs => hin s (List.mem_cons_of_mem _ hs)) hapart hmore
      refine ⟨fun c hmem => ?_, ?_, fun c hmem => ?_, ?_, hlimited, ?_⟩
      · rcases List.mem_cons.1 hmem with rfl | hmem
        · exact ⟨r, List.mem_cons_self, hc.start, hc.stop⟩
        · obtain ⟨s, hs, hends⟩ := hfrom c hmem
          exact ⟨s, List.mem_cons_of_mem _ hs, hends⟩
      · refine List.pairwise_cons.2 ⟨fun d hd => ?_, hpair⟩
        obtain ⟨s, hs, hstart, -⟩ := hfrom d hd
        rw [hc.stop, hstart]
        exact hbefore s hs
      · rcases List.mem_cons.1 hmem with rfl | hmem
        · exact hc.placed
        · exact hplaced c hmem
      · rw [hcounted, hc.counted, List.map_cons, List.sum_cons, Nat.add_assoc]
      · have := hc.twice
        simp only [List.map_cons, List.sum_cons]
        omega

theorem standsIn_standIn : Part.standsIn h (standIn raw h.body) = true := by
  simp [Part.standsIn, standIn, Part.header, Part.body, Part.heading]

/-- A multipart, with the parts its ranges gave. -/
theorem multipart_scans {levels parts parts' : Nat} {children : List Part} (hheader : h.header.In raw)
    (hbody : h.body.In raw) (hjoined : h.header.stop = h.body.start) (hstart : h.header.start = range.start)
    (hstop : h.body.stop = range.stop)
    (hfrom : ∀ c ∈ children, ∃ r ∈ h.ranges raw, c.header.start = r.start ∧ c.body.stop = r.stop)
    (hpair : children.Pairwise fun c d => c.body.stop ≤ d.header.start)
    (hplaced : ∀ c ∈ children, ∀ depth q, c.Holds depth q → q.Placed raw ∧ depth ≤ levels)
    (hcounted : parts' = parts + 1 + (children.map Part.scanned).sum) (hlimited : parts' ≤ maxParts)
    (htwice : (children.map Part.count).sum ≤ 2 * (children.map Part.scanned).sum) :
    Scans raw (levels + 1) range parts
      (.mk h (if children.isEmpty then [standIn raw h.body] else children) none 0, parts') := by
  obtain ⟨hranges, -⟩ := ranges_placed hbody
  have hlater : ∀ c ∈ children, h.body.start < c.header.start ∧ c.body.stop ≤ h.body.stop := by
    intro c hc
    obtain ⟨r, hr, hstart, hstop⟩ := hfrom c hc
    rw [hstart, hstop]
    exact ⟨(hranges r hr).1, (hranges r hr).2.2⟩
  cases hempty : children.isEmpty with
  | true =>
    obtain rfl := List.isEmpty_iff.1 hempty
    simp only [List.map_nil, List.sum_nil, Nat.add_zero] at hcounted
    have hin : Part.Placed raw (standIn raw h.body) :=
      leaf_placed ⟨le_rfl, hbody.1.trans hbody.2⟩ hbody rfl
    simp only [↓reduceIte]
    constructor
    · exact hstart
    · exact hstop
    · intro depth q hq
      rcases Part.holds_iff.1 hq with ⟨rfl, rfl⟩ | ⟨below, rfl, ⟨c, hc, hq⟩ | ⟨m, hm, -⟩⟩
      · refine ⟨⟨hheader, hbody, hjoined, fun c hc => ?_, List.pairwise_singleton _ _,
          fun m hm => by cases hm⟩,
          Nat.zero_le _⟩
        obtain rfl := List.mem_singleton.1 hc
        exact ⟨le_rfl, le_rfl⟩
      · obtain rfl := List.mem_singleton.1 hc
        rcases Part.holds_iff.1 hq with ⟨rfl, rfl⟩ | ⟨below, rfl, ⟨c, hc, -⟩ | ⟨m, hm, -⟩⟩
        · exact ⟨hin, by omega⟩
        · cases hc
        · cases hm
      · cases hm
    · rw [hcounted]
      simp [Part.scanned, Part.scannedAll, Part.scannedIn, standsIn_standIn]
    · rw [hcounted]
      exact le_max_right _ _
    · simp [Part.scanned, Part.scannedAll, Part.scannedIn, Part.count, Part.countAll, Part.countIn, standIn]
  | false =>
    have hstand : ∀ c ∈ children, Part.standsIn h c = false := by
      intro c hc
      have := (hlater c hc).1
      simp only [Part.standsIn, Bool.and_eq_false_iff, beq_eq_false_iff_ne]
      left
      intro heq
      rw [heq] at this
      exact lt_irrefl _ this
    simp only [Bool.false_eq_true, ↓reduceIte]
    constructor
    · exact hstart
    · exact hstop
    · intro depth q hq
      rcases Part.holds_iff.1 hq with ⟨rfl, rfl⟩ | ⟨below, rfl, ⟨c, hc, hq⟩ | ⟨m, hm, -⟩⟩
      · exact ⟨⟨hheader, hbody, hjoined, fun c hc => ⟨(hlater c hc).1.le, (hlater c hc).2⟩, hpair,
          fun m hm => by cases hm⟩, Nat.zero_le _⟩
      · obtain ⟨hq, hdepth⟩ := hplaced c hc below q hq
        exact ⟨hq, by omega⟩
      · cases hm
    · rw [hcounted, Part.scanned, scannedAll_eq hstand, Part.scannedIn]
      omega
    · exact hlimited.trans (le_max_left _ _)
    · rw [Part.count, Part.scanned, scannedAll_eq hstand, countAll_eq, Part.scannedIn, Part.countIn]
      omega

/-- A message/rfc822 part, with the message inside it. -/
theorem message_scans {levels parts parts' lines : Nat} (hheader : h.header.In raw)
    (hbody : h.body.In raw) (hjoined : h.header.stop = h.body.start) (hstart : h.header.start = range.start)
    (hstop : h.body.stop = range.stop)
    (hm : Scans raw levels h.body (parts + 1) (m, parts')) (hroom : parts + 1 < maxParts) :
    Scans raw (levels + 1) range parts (.mk h [] (some m) lines, parts') := by
  constructor
  · exact hstart
  · exact hstop
  · intro depth q hq
    rcases Part.holds_iff.1 hq with ⟨rfl, rfl⟩ | ⟨below, rfl, ⟨c, hc, -⟩ | ⟨m', hm', hq⟩⟩
    · refine ⟨⟨hheader, hbody, hjoined, fun c hc => (by cases hc), .nil, fun m' hm' => ?_⟩, Nat.zero_le _⟩
      cases hm'
      exact ⟨hm.start, hm.stop⟩
    · cases hc
    · cases hm'
      obtain ⟨hq, hdepth⟩ := hm.placed below q hq
      exact ⟨hq, by omega⟩
  · have := hm.counted
    simp only [Part.scanned, Part.scannedAll, Part.scannedIn] at this ⊢
    omega
  · have := hm.limited
    simp only at this ⊢
    omega
  · have := hm.twice
    simp only [Part.count, Part.countAll, Part.countIn, Part.scanned, Part.scannedAll,
      Part.scannedIn] at this ⊢
    omega

/-- **The scan of a range**, by the levels that are left. -/
theorem part_scans : ∀ {levels parts : Nat} {range : Span} {default : List Char × List Char}, range.In raw →
    Scans raw levels range parts (part raw levels range default parts)
  | 0, _, _, _, hin => leaf_scans hin
  | levels + 1, parts, range, default, hin => by
    obtain ⟨hstart, hheader, hbody, hjoined, hstop⟩ := @readHeading_placed _ _ default hin
    have hleaf := @leaf_scans raw range (levels + 1) parts default hin
    unfold part
    dsimp only
    generalize readHeading raw range default = h at *
    split
    · exact hleaf
    next hroom =>
      split
      · obtain ⟨hranges, hapart⟩ := ranges_placed hbody
        obtain ⟨hfrom, hpair, hplaced, hcounted, hlimited, htwice⟩ := @scanRanges_scans raw
          (fun range parts => part raw levels range h.childDefault parts) levels
            (fun hr => part_scans hr) _ (parts + 1)
          (fun r hr => ⟨(hranges r hr).2.1, (hranges r hr).2.2.trans hbody.2⟩) hapart (by omega)
        exact multipart_scans hheader hbody hjoined hstart hstop hfrom hpair hplaced hcounted hlimited htwice
      · split
        · exact message_scans hheader hbody hjoined hstart hstop (part_scans hbody) (by omega)
        · exact hleaf

/-! ## 5. Sections -/

theorem Part.Holds.trans {below : Nat} (hq : p.Holds depth q) (hm : q.Holds below m) :
    ∃ depth', p.Holds depth' m := by
  induction hq with
  | here => exact ⟨_, hm⟩
  | child hc _ ih =>
    obtain ⟨depth', ih⟩ := ih hm
    exact ⟨_, .child hc ih⟩
  | message hm' _ ih =>
    obtain ⟨depth', ih⟩ := ih hm
    exact ⟨_, .message hm' ih⟩

/-- `find` only walks down the tree. -/
theorem findFrom_holds : ∀ {path : List PartNumber} {p q : Part}
    {depth : Nat}, p.findFrom depth path = some q →
    ∃ below, p.Holds below q
  | [], p, q, depth, h => by
    cases h
    exact ⟨0, .here⟩
  | number :: path, p, q, depth, h => by
    unfold Part.findFrom at h
    dsimp only at h
    generalize hcontainer : (match p.message with
      | some message => if depth > 0 then message else p
      | none => p) = container at h
    have hdown : ∃ below, p.Holds below container := by
      rw [← hcontainer]
      split
      next message hmessage =>
        split
        · exact ⟨1, .message hmessage .here⟩
        · exact ⟨0, .here⟩
      · exact ⟨0, .here⟩
    obtain ⟨_, hdown⟩ := hdown
    split at h
    · split at h
      next child hchild =>
        obtain ⟨_, hq⟩ := findFrom_holds h
        exact hdown.trans (.child (List.mem_of_getElem? hchild) hq)
      · cases h
    · split at h
      · obtain ⟨_, hq⟩ := findFrom_holds h
        exact hdown.trans hq
      · cases h

theorem index_ok (hin : range.In raw) : index raw range = .ok (slice raw range) := if_pos hin

/-- **No section is cut outside the message**, when every part of the tree lies in it. -/
theorem sectionBytes_ok {root : Part} (hroot : ∀ depth p, root.Holds depth p → p.Placed raw) (s : Section) :
    ∃ bytes, sectionBytes raw root s = .ok bytes := by
  unfold sectionBytes
  cases hfind : root.find s.part with
  | none => exact ⟨_, rfl⟩
  | some p =>
    obtain ⟨depth, hp⟩ := findFrom_holds hfind
    have hplaced := hroot depth p hp
    dsimp only
    rcases s with ⟨path, _ | wanted⟩
    · cases path with
      | nil => exact ⟨_, rfl⟩
      | cons number path =>
        dsimp only
        rw [index_ok hplaced.body]
        exact ⟨_, rfl⟩
    · have hwhere : ∀ q, (if path.isEmpty then some root else p.message) = some q → q.Placed raw := by
        intro q hq
        split at hq
        · exact Option.some.inj hq ▸ hroot 0 root .here
        · obtain ⟨depth', hq⟩ := hp.trans (.message hq .here)
          exact hroot depth' q hq
      cases wanted with
      | mime =>
        dsimp only
        rw [index_ok hplaced.header]
        exact ⟨_, rfl⟩
      | header | headerFields | headerFieldsNot =>
        dsimp only
        split
        · exact ⟨_, rfl⟩
        next q hq =>
          rw [index_ok (hwhere q hq).header]
          exact ⟨_, rfl⟩
      | text =>
        dsimp only
        split
        · exact ⟨_, rfl⟩
        next q hq =>
          rw [index_ok (hwhere q hq).body]
          exact ⟨_, rfl⟩

theorem fetchSection_ok {root : Part} (hroot : ∀ depth p, root.Holds depth p → p.Placed raw) (s : Section)
    (cut : Option (Nat × Nat)) : ∃ bytes, fetchSection raw root s cut = .ok bytes := by
  obtain ⟨bytes, hbytes⟩ := sectionBytes_ok hroot s
  unfold fetchSection
  rw [hbytes]
  cases cut with
  | none => exact ⟨_, rfl⟩
  | some cut =>
    have hin : Span.In ⟨min cut.1 (bytes.getD []).length, min (min cut.1 (bytes.getD []).length + cut.2)
        (bytes.getD []).length⟩ (bytes.getD []) := by
      constructor <;> dsimp only <;> omega
    exact ⟨_, index_ok hin⟩

end

/-- **What FETCH may rely on.**  Every part of the tree, at whatever depth, has its header and its
body inside the message and the parts inside it in its body, in order and apart; the depth and the
number of the parts that were scanned keep the limits, and there are at most twice as many parts;
and no section of the tree, and no piece of one, is cut outside the message. -/
theorem parse_structure (raw : List UInt8) :
    (∀ depth p, (parse raw).Holds depth p → p.Placed raw ∧ depth ≤ maxDepth) ∧
      (parse raw).scanned ≤ maxParts ∧ (parse raw).count ≤ 2 * (parse raw).scanned ∧
      ∀ s cut, ∃ bytes, fetchSection raw (parse raw) s cut = .ok bytes := by
  have hscans : Scans raw maxDepth ⟨0, raw.length⟩ 0 (part raw maxDepth ⟨0, raw.length⟩ (text, plain) 0) :=
    part_scans ⟨Nat.zero_le _, le_rfl⟩
  refine ⟨hscans.placed, ?_, hscans.twice, fun s cut => ?_⟩
  · have hcounted := hscans.counted
    have hlimited := hscans.limited
    rw [hcounted, Nat.zero_add, Nat.zero_add] at hlimited
    exact hlimited.trans (by decide)
  · exact fetchSection_ok (fun depth p hp => (hscans.placed depth p hp).1) s cut

/-! ## 6. More parts than were scanned -/

/-- A multipart, its parts, and what stands in one of them: a multipart in which nothing will be
found. -/
def opening : List UInt8 := encode "Content-Type:multipart/x;boundary=b\n\n".toList
def boundaryB : List UInt8 := encode "--b\n".toList
def closingB : List UInt8 := encode "--b--".toList
def hollow : List UInt8 := encode "Content-Type:multipart/a".toList

/-- `count` more hollow parts, and the last boundary. -/
def hollows : Nat → List UInt8
  | 0 => closingB
  | count + 1 => boundaryB ++ (hollow ++ lf :: hollows count)

/-- The lines of `hollows`. -/
def hollowLines : Nat → List (List UInt8)
  | 0 => [closingB]
  | count + 1 => boundaryB :: (hollow ++ [lf]) :: hollowLines count

def emptyMultiparts (count : Nat) : List UInt8 := opening ++ hollows count

theorem cutAfter_line {line rest : List UInt8} (h : line.all (· != lf) = true) :
    cutAfter (fun b _ => b == lf) (line ++ lf :: rest) =
        (line ++ [lf]) :: cutAfter (fun b _ => b == lf) rest := by
  induction line with
  | nil => rfl
  | cons b line ih =>
    rw [List.all_cons, Bool.and_eq_true_iff, bne_iff_ne] at h
    rw [List.cons_append, cutAfter, beq_false_of_ne h.1, ih h.2]
    rfl

theorem cutAfter_hollows (count : Nat) : cutAfter (fun b _ => b == lf)
    (hollows count) = hollowLines count := by
  induction count with
  | zero => decide
  | succ count ih =>
    have hboundary : boundaryB = encode "--b".toList ++ [lf] := by decide
    have hsplit : hollows (count + 1) = encode "--b".toList ++ lf :: (hollow ++ lf :: hollows count) := by
      rw [hollows, hboundary, List.append_assoc]
      rfl
    rw [hsplit, cutAfter_line (by decide), cutAfter_line (by decide), ih, hollowLines, hboundary]

theorem slice_middle {before middle after : List UInt8} :
    slice (before ++ (middle ++ after)) ⟨before.length, before.length + middle.length⟩ = middle := by
  unfold slice
  rw [List.take_length_add_append, List.drop_left, List.take_left]

section
variable {front before rest raw : List UInt8} {body : Span} {levels parts : Nat}
  {default : List Char × List Char}

theorem length_hollow : hollow.length = 24 := by decide

theorem partStop_hollow : partStop (before ++ (hollow ++ lf :: rest)) before.length (before.length + 25) =
    before.length + 24 := by
  have hlast : (before ++ (hollow ++ lf :: rest))[before.length + 24]? = some lf := by
    rw [List.getElem?_append_right (by omega), List.getElem?_append_right (by rw [length_hollow]; omega),
      length_hollow]
    simp
  have hmore : (before ++ (hollow ++ lf :: rest))[before.length + 23]? = some 0x61 := by
    rw [List.getElem?_append_right (by omega), List.getElem?_append_left (by rw [length_hollow]; omega),
      Nat.add_sub_cancel_left]
    decide
  unfold partStop
  rw [show before.length + 25 - 1 = before.length + 24 from rfl, hlast]
  rw [show before.length + 25 - 2 = before.length + 23 from rfl, hmore]
  simp [cr]

/-- The loop over the rest of the lines, when the line of a hollow part was just read. -/
theorem splitLoop_hollows (count : Nat) : ∀ before : List UInt8, body.start = front.length →
    raw = front ++ (before ++ (hollow ++ lf :: hollows count)) →
    (splitLoop (before ++ (hollow ++ lf :: hollows count)) body (encode "--b".toList) (hollowLines count)
      (before.length + 25) (some before.length)).length = count + 1 ∧
    ∀ r ∈ splitLoop (before ++ (hollow ++ lf :: hollows count)) body (encode "--b".toList)
      (hollowLines count) (before.length + 25) (some before.length), slice raw r = hollow := by
  have hpiece : ∀ {before rest : List UInt8}, body.start = front.length →
      raw = front ++ (before ++ (hollow ++ lf :: rest)) →
      slice raw ⟨body.start + before.length, body.start + max (partStop (before ++ (hollow ++ lf :: rest)) before.length
        (before.length + 25)) before.length⟩ = hollow := by
    intro before rest hstart hraw
    rw [partStop_hollow, max_eq_left (by omega), hstart, hraw, ← List.append_assoc, ← List.length_append,
      ← Nat.add_assoc, ← List.length_append, ← length_hollow]
    exact slice_middle
  induction count with
  | zero =>
    intro before hstart hraw
    have hclosing : boundaryLine (encode "--b".toList) closingB = some true := by decide
    simp only [hollowLines, splitLoop, hclosing]
    simpa using hpiece hstart hraw
  | succ count ih =>
    intro before hstart hraw
    have hboundary : boundaryLine (encode "--b".toList) boundaryB = some false := by decide
    have hline : boundaryLine (encode "--b".toList) (hollow ++ [lf]) = none := by decide
    have hmore : before ++ (hollow ++ lf :: hollows (count + 1)) =
        (before ++ (hollow ++ lf :: boundaryB)) ++ (hollow ++ lf :: hollows count) := by
      simp [hollows]
    have hlength : (before ++ (hollow ++ lf :: boundaryB)).length = before.length + 29 := by
      rw [List.length_append, List.length_append, length_hollow, List.length_cons]
      rfl
    obtain ⟨hcount, hall⟩ := ih (before ++ (hollow ++ lf :: boundaryB)) hstart (by rw [hraw, hmore])
    rw [hlength, ← hmore] at hcount hall
    have hnext : boundaryB.length = 4 := by decide
    simp only [hollowLines, splitLoop, hboundary, hline, hnext, List.length_append, length_hollow,
      List.length_singleton]
    refine ⟨?_, fun r hr => ?_⟩
    · simpa using hcount
    · simp only [Option.toList_some, List.map_cons, List.map_nil, Bool.false_eq_true, ↓reduceIte,
        List.mem_append,
        List.mem_singleton] at hr
      rcases hr with rfl | hr
      · exact hpiece hstart hraw
      · exact hall r hr

theorem slice_all : slice raw ⟨0, raw.length⟩ = raw := by
  simp [slice]

/-- What a hollow part says: it is a multipart, and has no boundary. -/
theorem readHeading_hollow {r : Span} (hr : slice raw r = hollow) :
    (readHeading raw r default).isMultipart = true ∧ (readHeading raw r default).ranges raw = [] := by
  have hend : headerEnd raw r = r.stop := by
    have hnone : [cr, lf].isPrefixOf hollow = false ∧ [lf].isPrefixOf hollow = false ∧
        emptyLine hollow 0 = none := by
      decide
    unfold headerEnd
    simp only [hr, hnone.1, hnone.2.1, hnone.2.2, Bool.false_eq_true, ↓reduceIte]
  have hfields : fields raw ⟨r.start, r.stop⟩ = fields hollow ⟨0, hollow.length⟩ := by
    unfold fields
    rw [show slice raw ⟨r.start, r.stop⟩ = hollow from hr, slice_all]
  have htells : (contentType (field (fields hollow ⟨0, hollow.length⟩) "Content-Type".toList) default) =
      (multipart, ['a'], []) := by
    rw [show field (fields hollow ⟨0, hollow.length⟩) "Content-Type".toList =
      some "multipart/a".toList by decide]
    rfl
  unfold readHeading Heading.ranges Heading.boundary Heading.isMultipart
  simp only [hend, hfields, htells]
  exact ⟨rfl, rfl⟩

/-- So it is shown with one part that was not scanned. -/
theorem part_hollow {r : Span} (hr : slice raw r = hollow) (hroom : parts + 1 < maxParts) :
    (part raw (levels + 1) r default parts).1.count = 2 ∧
        (part raw (levels + 1) r default parts).2 = parts + 1 := by
  obtain ⟨hmultipart, hranges⟩ := @readHeading_hollow raw default r hr
  unfold part
  simp only [if_neg (not_le.2 hroom), hmultipart, hranges, scanRanges, ↓reduceIte, List.isEmpty_nil,
    ge_iff_le]
  exact ⟨rfl, trivial⟩

theorem scanRanges_hollow {ranges : List Span} (hall : ∀ r ∈ ranges, slice raw r = hollow)
    (hroom : parts + ranges.length < maxParts) :
    Part.countAll (scanRanges (fun range parts => part raw (levels + 1) range default parts) ranges parts).1 =
      2 * ranges.length := by
  induction ranges generalizing parts with
  | nil => rfl
  | cons r ranges ih =>
    rw [List.length_cons] at hroom ⊢
    obtain ⟨hcount, hparts⟩ := @part_hollow raw levels parts default r (hall r List.mem_cons_self) (by omega)
    unfold scanRanges
    rw [if_neg (by omega)]
    simp only [Part.countAll, hcount, hparts]
    rw [ih (fun s hs => hall s (List.mem_cons_of_mem _ hs)) (by omega)]
    omega

theorem readHeading_opening (rest : List UInt8) :
    (readHeading (opening ++ rest) ⟨0, (opening ++ rest).length⟩ default).isMultipart = true ∧
      (readHeading (opening ++ rest) ⟨0, (opening ++ rest).length⟩ default).body =
        ⟨opening.length, (opening ++ rest).length⟩ ∧
      (readHeading (opening ++ rest) ⟨0, (opening ++ rest).length⟩ default).boundary = some ['b'] := by
  have hend : headerEnd (opening ++ rest) ⟨0, (opening ++ rest).length⟩ = opening.length := by
    unfold headerEnd
    rw [slice_all]
    rfl
  have hfields : fields (opening ++ rest) ⟨0, opening.length⟩ = fields opening ⟨0, opening.length⟩ := by
    unfold fields
    rw [slice_all]
    unfold slice
    rw [List.take_left, List.drop_zero]
  have htells : (contentType (field (fields opening ⟨0, opening.length⟩) "Content-Type".toList) default) =
      (multipart, ['x'], [("boundary".toList, ['b'])]) := by
    rw [show field (fields opening ⟨0, opening.length⟩) "Content-Type".toList =
      some "multipart/x;boundary=b".toList by decide]
    rfl
  unfold readHeading Heading.boundary Heading.isMultipart
  simp only [hend, hfields, htells]
  exact ⟨rfl, trivial, rfl⟩

end

/-- **A multipart of `count` multiparts in which nothing is found** is shown with `2 * count + 1`
parts. -/
theorem empty_multiparts (count : Nat) (hpos : 0 < count) (hroom : count + 1 < maxParts) :
    (parse (emptyMultiparts count)).count = 2 * count + 1 := by
  obtain ⟨count, rfl⟩ := Nat.exists_eq_succ_of_ne_zero hpos.ne'
  obtain ⟨hmultipart, hbody, hboundary⟩ := @readHeading_opening (text, plain) (hollows (count + 1))
  have hslice : slice (opening ++ hollows (count + 1)) ⟨opening.length,
    (opening ++ hollows (count + 1)).length⟩ =
      hollows (count + 1) := by
    unfold slice
    rw [List.take_length, List.drop_left]
  have hopen : boundaryLine (encode "--b".toList) boundaryB = some false := by decide
  have hline : boundaryLine (encode "--b".toList) (hollow ++ [lf]) = none := by decide
  obtain ⟨hlength, hall⟩ := @splitLoop_hollows opening (opening ++ hollows (count + 1))
    ⟨opening.length, (opening ++ hollows (count + 1)).length⟩ count boundaryB rfl rfl
  have hranges : (readHeading (opening ++ hollows (count + 1)) ⟨0, (opening ++ hollows (count + 1)).length⟩
      (text, plain)).ranges (opening ++ hollows (count + 1)) =
        splitLoop (boundaryB ++ (hollow ++ lf :: hollows count))
        ⟨opening.length, (opening ++ hollows (count + 1)).length⟩ (encode "--b".toList) (hollowLines count)
        (boundaryB.length + 25) (some boundaryB.length) := by
    have hnext : boundaryB.length = 4 := by decide
    unfold Heading.ranges
    rw [hboundary, hbody]
    dsimp only
    unfold splitMultipart
    dsimp only
    rw [hslice, cutAfter_hollows, hollowLines, splitLoop]
    simp only [show encode ['-', '-', 'b'] = encode "--b".toList from rfl, hopen, splitLoop, hline, hnext,
      List.length_append, length_hollow, List.length_singleton]
    rfl
  rw [← hranges] at hlength hall
  unfold parse emptyMultiparts
  rw [show maxDepth = 30 + 2 from rfl, part]
  have hchildren := fun default => @scanRanges_hollow (opening ++ hollows (count + 1)) 30 1 default _ hall (by omega)
  generalize readHeading (opening ++ hollows (count + 1)) ⟨0,
    (opening ++ hollows (count + 1)).length⟩ (text, plain) =
    h at *
  have hne : (scanRanges (fun range parts => part (opening ++ hollows (count + 1)) (30 + 1) range h.childDefault parts)
      (h.ranges (opening ++ hollows (count + 1))) 1).1.isEmpty = false := by
    cases hnone : (scanRanges (fun range parts => part (opening ++ hollows (count + 1)) (30 + 1) range h.childDefault
        parts) (h.ranges (opening ++ hollows (count + 1))) 1).1 with
    | nil =>
      have := hchildren h.childDefault
      rw [hnone, hlength] at this
      cases this
    | cons => rfl
  simp only [hmultipart, ↓reduceIte, hne, Bool.false_eq_true, Nat.zero_add]
  rw [if_neg (by decide), Part.count, hchildren, hlength]
  rfl

/-- **The limit on the number of parts is not one on the tree.** -/
theorem parts_limit_fails : ¬ ∀ raw, (parse raw).count ≤ maxParts := by
  intro h
  have h := h (emptyMultiparts 500)
  rw [empty_multiparts 500 (by decide) (by decide)] at h
  exact absurd h (by decide)

end UwuMail.Mime
