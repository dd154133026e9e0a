/-
# The MIME structure of a message, with the ranges of its parts

FETCH hands out single parts by their number, byte by byte as they are in the message, so the scan
of a message keeps RANGES and no contents: where the header of a part begins and ends, where its
body does, and the parts inside.  A boundary may be missing, come twice, be that of the part around,
or never end; an enclosed message is scanned inside the range of the part that holds it.  The scan
stops at a depth and after a number of parts, and what lies further down is a leaf.

`parse_structure` is what FETCH may rely on.  EVERY part of the tree has its header and its body
inside the message, the body where the header ends, and the parts inside a part lie in its body, in
order and apart from each other, so that no section is ever cut outside the message.  The limit on
the number of parts is one on the parts SCANNED: a multipart in which nothing was found shows its
body as one part of text, and these parts come on top (`empty_multiparts`).
-/
import UwuMail.Imap.Dates
import UwuMail.Imap.Parser
import UwuMail.Lib.Utf8
import UwuMail.Store.Mutate

namespace UwuMail.Mime

open Imap (splitOnceAt)
open Imap.Byte (cr lf colon)
open Store (isWhitespace)

/-! ## 1. Header fields -/

/-- A range of bytes. -/
structure Span where
  start : Nat
  stop : Nat
deriving DecidableEq

/-- The bytes of a range that lies in the message. -/
def slice (raw : List UInt8) (range : Span) : List UInt8 := (raw.take range.stop).drop range.start

def trimEnd (text : List Char) : List Char := (text.reverse.dropWhile isWhitespace).reverse

def trim (text : List Char) : List Char := trimEnd (text.dropWhile isWhitespace)

def lower (text : List Char) : List Char := text.map Char.toLower

/-- How far it is to the end of the first empty line that follows a line. -/
def emptyLine : List UInt8 → Nat → Option Nat
  | [], _ => none
  | b :: bytes, i =>
    if b == lf && [cr, lf].isPrefixOf bytes then some (i + 3)
    else if b == lf && [lf].isPrefixOf bytes then some (i + 2)
    else emptyLine bytes (i + 1)

/-- Where the header ends: after the first empty line, or at the end when there is none. -/
def headerEnd (raw : List UInt8) (range : Span) : Nat :=
  let bytes := slice raw range
  if [cr, lf].isPrefixOf bytes then range.start + 2
  else if [lf].isPrefixOf bytes then range.start + 1
  else
    match emptyLine bytes 0 with
    | some i => range.start + i
    | none => range.stop

/-- The pieces that end after each byte `ends` stops at, which it tells from what follows. -/
def cutAfter (ends : UInt8 → List UInt8 → Bool) : List UInt8 → List (List UInt8)
  | [] => []
  | b :: bytes =>
    if ends b bytes then [b] :: cutAfter ends bytes
    else
      match cutAfter ends bytes with
      | [] => [[b]]
      | piece :: pieces => (b :: piece) :: pieces

/-- One header field: its name and the value with folding removed, and the whole field as it is. -/
structure Field where
  name : List Char
  value : List Char
  raw : List UInt8

/-- Whether the line that begins here continues the field before it. -/
def folds : List UInt8 → Bool
  | b :: _ => b == 0x20 || b == 0x09
  | [] => false

def unfold (value : List Char) : List Char :=
  List.intercalate [' '] (((value.splitOnP fun c => c == '\r' || c == '\n').map trim).filter (!·.isEmpty))

def readField (field : List UInt8) : Option Field := do
  let middle ← field.idxOf? colon
  let name ← Utf8.decode (field.take middle)
  let name := trimEnd name
  if name.isEmpty || name.any isWhitespace then none
  else some ⟨name, unfold (Utf8.lossy (field.drop (middle + 1))), field⟩

/-- The fields of a header.  A field runs until a line that does not start with whitespace. -/
def fields (raw : List UInt8) (header : Span) : List Field :=
  (cutAfter (fun b bytes => b == lf && !folds bytes) (slice raw header)).filterMap readField

def field (fields : List Field) (name : List Char) : Option (List Char) :=
  (fields.find? fun field => lower field.name == lower name).map (·.value)

/-- What stands between the semicolons outside quotes. -/
def splitParams : List Char → Bool → List Char → List (List Char)
  | [], _, current => [current]
  | [c], inQuotes, current => if c == ';' && !inQuotes then [current, []] else [current ++ [c]]
  | c :: next :: rest, inQuotes, current =>
    if c == '"' then splitParams (next :: rest) (!inQuotes) (current ++ [c])
    else if c == '\\' && inQuotes then splitParams rest inQuotes (current ++ [c, next])
    else if c == ';' && !inQuotes then current :: splitParams (next :: rest) inQuotes []
    else splitParams (next :: rest) inQuotes (current ++ [c])

/-- `replace("\\c", "c")`. -/
def unescape (c : Char) : List Char → List Char
  | [] => []
  | [b] => [b]
  | b :: d :: rest => if b == '\\' && d == c then c :: unescape c rest else b :: unescape c (d :: rest)

/-- What is between the quotes, when there are two. -/
def unquote (value : List Char) : Option (List Char) :=
  match value with
  | c :: rest => if c == '"' && rest.getLast? == some '"' then some rest.dropLast else none
  | [] => none

def readParam (piece : List Char) : Option (List Char × List Char) := do
  let (name, value) ← splitOnceAt '=' piece
  let name := lower (trim name)
  let value := trim value
  let value := match unquote value with
    | some inner => unescape '\\' (unescape '"' inner)
    | none => value
  if name.isEmpty then none else some (name, value)

/-- Splits `value; a=b; c="d"` into the value and its parameters. -/
def valueAndParams (value : List Char) : List Char × List (List Char × List Char) :=
  match splitParams value false [] with
  | [] => ([], [])
  | head :: pieces => (trim head, pieces.filterMap readParam)

def countLines (bytes : List UInt8) : Nat := bytes.countP (· == lf)

/-! ## 2. The parts of a multipart -/

/-- Whether a line is a boundary line, and if it is, whether it is the last one. -/
def boundaryLine (delimiter line : List UInt8) : Option Bool :=
  if delimiter.isPrefixOf line then
    let rest := trimEnd (Utf8.lossy (line.drop delimiter.length))
    if rest == ['-', '-'] then some true else if rest.isEmpty then some false else none
  else none

/-- The line break before the boundary belongs to the boundary. -/
def partStop (bytes : List UInt8) (start lineStart : Nat) : Nat :=
  if lineStart > start && bytes[lineStart - 1]? == some lf then
    if lineStart - 1 > start && bytes[lineStart - 2]? == some cr then lineStart - 2 else lineStart - 1
  else lineStart

/-- The loop over the lines of the body. -/
def splitLoop (bytes : List UInt8) (body : Span) (delimiter : List UInt8) :
    List (List UInt8) → Nat → Option Nat → List Span
  | [], _, none => []
  | [], _, some start => [⟨body.start + start, body.stop⟩]
  | line :: lines, lineStart, partStart =>
    let lineEnd := lineStart + line.length
    match boundaryLine delimiter line with
    | none => splitLoop bytes body delimiter lines lineEnd partStart
    | some closing =>
      let part := partStart.toList.map fun start =>
        (⟨body.start + start, body.start + max (partStop bytes start lineStart) start⟩ : Span)
      if closing then part else part ++ splitLoop bytes body delimiter lines lineEnd (some lineEnd)

/-- Ranges of the parts of a multipart body, between the boundary lines. -/
def splitMultipart (raw : List UInt8) (body : Span) (boundary : List Char) : List Span :=
  let delimiter := Utf8.encode ('-' :: '-' :: boundary)
  let bytes := slice raw body
  splitLoop bytes body delimiter (cutAfter (fun b _ => b == lf) bytes) 0 none

/-! ## 3. The scan -/

/-- Nesting deeper than this is treated as a leaf. -/
def maxDepth : Nat := 32
def maxParts : Nat := 1000

/-- What a part says of itself. -/
structure Heading where
  /-- With the empty line that ends it. -/
  header : Span
  body : Span
  /-- Lowercase. -/
  mediaType : List Char
  subtype : List Char
  params : List (List Char × List Char)
  id : Option (List Char)
  description : Option (List Char)
  encoding : Option (List Char)
  md5 : Option (List Char)
  disposition : Option (List Char × List (List Char × List Char))
  language : Option (List (List Char))
  location : Option (List Char)

/-- A part, the parts inside it, the message inside a message/rfc822 part, and the lines of a text
body or an enclosed message. -/
inductive Part where
  | mk (heading : Heading) (children : List Part) (message : Option Part) (lines : Nat)

namespace Part

def heading : Part → Heading
  | mk heading _ _ _ => heading

def children : Part → List Part
  | mk _ children _ _ => children

def message : Part → Option Part
  | mk _ _ message _ => message

def header (p : Part) : Span := p.heading.header

def body (p : Part) : Span := p.heading.body

end Part

def text : List Char := ['t', 'e', 'x', 't']
def plain : List Char := ['p', 'l', 'a', 'i', 'n']
def multipart : List Char := "multipart".toList
def messageType : List Char := "message".toList
def rfc822 : List Char := "rfc822".toList
def charset : List Char := "charset".toList
def usAscii : List Char := "us-ascii".toList

/-- The type, the subtype and the parameters that Content-Type gives. -/
def contentType (value : Option (List Char)) (default : List Char × List Char) :
    List Char × List Char × List (List Char × List Char) :=
  match value with
  | none => (default.1, default.2, [])
  | some value =>
    let (head, params) := valueAndParams value
    match splitOnceAt '/' head with
    | some (t, s) =>
      if (trim t).isEmpty || (trim s).isEmpty then (text, plain, params)
        else (lower (trim t), lower (trim s), params)
    | none => (text, plain, params)

/-- Text parts get a default charset. -/
def withCharset (mediaType : List Char) (params : List (List Char × List Char)) :
    List (List Char × List Char) :=
  if mediaType == text && !params.any (·.1 == charset) then params ++ [(charset, usAscii)] else params

def readHeading (raw : List UInt8) (range : Span) (default : List Char × List Char) : Heading :=
  let header : Span := ⟨range.start, headerEnd raw range⟩
  let found := fields raw header
  let (mediaType, subtype, params) := contentType (field found "Content-Type".toList) default
  { header
    body := ⟨header.stop, range.stop⟩
    mediaType
    subtype
    params := withCharset mediaType params
    id := field found "Content-ID".toList
    description := field found "Content-Description".toList
    encoding := (field found "Content-Transfer-Encoding".toList).map lower
    md5 := field found "Content-MD5".toList
    disposition := (field found "Content-Disposition".toList).map fun value =>
      ((lower (valueAndParams value).1), (valueAndParams value).2)
    language := (field found "Content-Language".toList).map fun value =>
      ((value.splitOnP (· == ',')).map trim).filter (!·.isEmpty)
    location := field found "Content-Location".toList }

namespace Heading

def isMultipart (h : Heading) : Bool := h.mediaType == multipart

def isMessage (h : Heading) : Bool := h.mediaType == messageType && h.subtype == rfc822

/-- The boundary, when it is not empty. -/
def boundary (h : Heading) : Option (List Char) :=
  (h.params.find? (·.1 == "boundary".toList)).bind fun param => if param.2.isEmpty then none else some param.2

/-- What a part of this multipart is when it does not say. -/
def childDefault (h : Heading) : List Char × List Char :=
  if h.subtype == "digest".toList then (messageType, rfc822) else (text, plain)

/-- The ranges of its parts. -/
def ranges (raw : List UInt8) (h : Heading) : List Span :=
  match h.boundary with
  | some boundary => splitMultipart raw h.body boundary
  | none => []

end Heading

/-- A multipart without parts: IMAP needs at least one, so show the body as text. -/
def standIn (raw : List UInt8) (body : Span) : Part :=
  .mk { header := ⟨body.start, body.start⟩
        body
        mediaType := text
        subtype := plain
        params := [(charset, usAscii)]
        id := none
        description := none
        encoding := none
        md5 := none
        disposition := none
        language := none
        location := none }
    [] none (countLines (slice raw body))

/-- A part that is not looked into. -/
def leaf (raw : List UInt8) (h : Heading) : Part :=
  .mk h [] none (if h.mediaType == text then countLines (slice raw h.body) else 0)

/-- The loop over the ranges of a multipart; the last number is how many parts were scanned. -/
def scanRanges (scan : Span → Nat → Part × Nat) : List Span → Nat → List Part × Nat
  | [], parts => ([], parts)
  | range :: ranges, parts =>
    if parts ≥ maxParts then ([], parts)
    else
      let (child, parts) := scan range parts
      let (children, parts) := scanRanges scan ranges parts
      (child :: children, parts)

/-- `part` at the depth from which it may still go down `levels` levels, when `parts` were scanned
before. -/
def part (raw : List UInt8) : Nat → Span → List Char × List Char → Nat → Part × Nat
  | 0, range, default, parts => (leaf raw (readHeading raw range default), parts + 1)
  | levels + 1, range, default, parts =>
    let h := readHeading raw range default
    let parts := parts + 1
    if parts ≥ maxParts then (leaf raw h, parts)
    else if h.isMultipart then
      let (children, parts) :=
        scanRanges (fun range parts => part raw levels range h.childDefault parts) (h.ranges raw) parts
      (.mk h (if children.isEmpty then [standIn raw h.body] else children) none 0, parts)
    else if h.isMessage then
      let (message, parts) := part raw levels h.body (text, plain) parts
      (.mk h [] (some message) (countLines (slice raw h.body)), parts)
    else (leaf raw h, parts)

/-- The structure of a whole message. -/
def parse (raw : List UInt8) : Part := (part raw maxDepth ⟨0, raw.length⟩ (text, plain) 0).1

end UwuMail.Mime
