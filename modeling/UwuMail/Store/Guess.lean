/-
# The code or link that is guessed

Where no signed header says it, `verification.rs` looks for exactly one clear candidate: a code next
to a word like "code" or "Bestätigungscode", or else one sign-in link of an HTML mail, and that only
when DMARC passed.

`detect_trustworthy` is the result: WHATEVER the bytes of the mail, what the parser and the regular
expressions make of them, and whichever of the scanners succeeds, **what is detected is
trustworthy**.
-/
import UwuMail.Store.Verification

namespace UwuMail.Store.Verification

open Abuse (Text byteLen)
open Imap (parseI64)
open Lib (lower)

/-- How much of subject and text the guess reads: codes sit at the top of a mail. -/
def maxText : Nat := 16 * 1024

/-- The largest message looked at at all. -/
def maxMessage : Nat := 1024 * 1024

/-- How long a guessed code counts as valid when the text says nothing about it. -/
def defaultValidity : Int := 15 * 60

/-! ## 1. Words and candidates -/

/-- A word of a line, as written and folded for comparing. -/
structure Word where
  text : Text
  lower : Text

def aroundWords : Text := ".,;!?()[]\x7b\x7d\"'<>*«»„“”‚‘’|".toList

def wordsOf (x : Outside) (line : Text) : List Word :=
  (((line.splitOnP fun c => isWhitespace c || c == ':' || c == '=').map
      (Lib.trim fun c => aroundWords.contains c)).filter (!·.isEmpty)).map fun text => ⟨text,
        x.toLowercase text⟩

/-- `str::contains`. -/
def has (text : Text) (needle : String) : Bool := decide (needle.toList <:+: text)

def startsWith (text : Text) (start : String) : Bool := start.toList.isPrefixOf text

def endsWith (text : Text) (stop : String) : Bool := stop.toList.isSuffixOf text

def trimHyphens (text : Text) : Text := Lib.trim (· == '-') text

/-- Code words that are no code to sign in with. -/
def notACode : List String :=
  ["rabatt", "gutschein", "promo", "discount", "coupon", "voucher", "aktions", "post", "zip", "bar",
    "qr", "quell", "source",
    "gift", "geschenk", "farb", "color", "colour", "fehler", "error", "status", "dress", "steuer",
      "area", "country",
    "länder", "vorwahl", "html"]

/-- Short words that are keywords on their own. -/
def shortKeywords : List String := ["otp", "2fa", "pin", "tan", "mtan", "passcode", "totp", "einmalpasswort"]

/-- Words just before or after a number that make it something else, also inside compounds such as
"Kundennummer" or "Sendungsnummer". -/
def notNear : List String :=
  ["bestell", "order", "rechnung", "invoice", "kunden", "customer", "auftrag", "sendung",
    "tracking", "artikel", "nummer",
    "number", "ticket", "referenz", "reference", "telefon", "phone", "hotline", "vertrag",
      "contract", "vorgang", "paket",
    "package", "lieferung", "shipment", "receipt", "quittung", "transaktion", "transaction",
      "postfach", "zimmer"]

/-- The same, for words too short to look for inside others. -/
def notNearExactly : List String :=
  ["nr", "no", "iban", "ref", "plz", "tel", "fax", "item", "case", "bon", "room", "seite", "page", "id"]

def currencies : List String :=
  ["€", "eur", "euro", "euros", "$", "usd", "dollar", "dollars", "£", "gbp", "chf", "fr"]

/-- Words in a line that make its "code" a sales pitch. -/
def promotion : List String :=
  ["rabatt", "gutschein", "discount", "coupon", "voucher", "promo", "sale", "sparen", "spare",
    "save", "angebot", "offer",
    "gratis", "versandkostenfrei"]

def promoted (words : List Word) : Bool :=
  words.any fun word => word.text.contains '%' || promotion.any (startsWith (trimHyphens word.lower))

/-- Whether the word asks for a code, by the word in front of it. -/
def isKeyword (before : Text) (word : Word) : Bool :=
  if shortKeywords.any (fun short => trimHyphens word.lower == short.toList) then true
  else
    let stem :=
      if endsWith word.lower "codes" then some (word.lower.take (word.lower.length - 5))
      else if endsWith word.lower "code" then some (word.lower.take (word.lower.length - 4))
      else none
    match stem with
    | none => false
    | some stem =>
      let stem := stem.rdropWhile (· == '-')
      !notACode.any fun no => endsWith stem no || startsWith before no

/-- Whether a line asks for a code: "Bestätigungscode", "verification code", "Code:", "OTP",
"2FA". -/
def hasKeyword (words : List Word) : Bool :=
  !promoted words && (List.range words.length).any fun index =>
    (words[index]?).any (isKeyword (if index = 0 then [] else ((words[index - 1]?).map (·.lower)).getD []))

/-- A number in the word, as far as its digits go: `+49`, `030`, `12.50`. -/
def isNumeric (word : Word) : Bool :=
  decide (2 ≤ (word.text.filter Char.isDigit).length) &&
    word.text.all fun c => c.isDigit || ".,-+/()".toList.contains c

def allDigits (text : Text) : Bool := !text.isEmpty && text.all Char.isDigit

/-- The code a word is, if it looks like one: 4 to 8 digits with at most one hyphen in the middle,
or 6 to 8 capitals and digits with at least one of each. -/
def codeOf (text : Text) : Option Text :=
  if allDigits text then if 4 ≤ byteLen text ∧ byteLen text ≤ 8 then some text else none
  else if text.contains '-' then
    let left := text.takeWhile (· != '-')
    let right := (text.dropWhile (· != '-')).tail
    if allDigits left ∧ allDigits right ∧ 2 ≤ byteLen left ∧ 2 ≤ byteLen right ∧ 4 ≤ byteLen (left ++ right) ∧
        byteLen (left ++ right) ≤ 8 then some (left ++ right)
    else none
  else if (text.all fun c => c.isUpper || c.isDigit) && text.any Char.isDigit && text.any Char.isUpper &&
      decide (6 ≤ byteLen text) && decide (byteLen text ≤ 8) then some text
  else none

/-- Whether a four-digit number is rather a year. -/
def isYear (code : Text) : Bool :=
  decide (byteLen code = 4) && (parseI64 code).any fun year => decide (1900 ≤ year) && decide (year ≤ 2099)

def isCurrency (word : Word) : Bool :=
  currencies.any (·.toList == word.lower) || word.text.any fun c => c == '€' || c == '$' || c == '£'

/-- Whether the word makes a number next to it something else. -/
def spoils (word : Word) : Bool :=
  let lower := word.lower.dropWhile (· == '#')
  word.text.head? == some '#' || notNear.any (has lower) || notNearExactly.any fun no => lower == no.toList

/-- `plausible`: whether the words around a candidate leave it a code. -/
def isPlausible (x : Outside) (words : List Word) (first last : Nat) (code : Text) : Bool :=
  let before := if first = 0 then none else words[first - 1]?
  let after := words[last + 1]?
  let context := (words.take first).drop (first - 3) ++ after.toList
  !isYear code && !before.any isNumeric && !after.any isNumeric && !before.any isCurrency &&
    !after.any isCurrency &&
    !context.any spoils &&
    -- "10115 Berlin": a postal code in front of a town
    !(decide (byteLen code = 5) && first == last && after.any fun word => word.text.head?.any x.isUppercase)

/-- Two short groups of digits that are read as one code: "482 913". -/
def isPair (first next : Text) : Bool :=
  allDigits first && allDigits next && (decide (3 ≤ byteLen first) && decide (byteLen first ≤ 4)) &&
    (decide (3 ≤ byteLen next) && decide (byteLen next ≤ 4))

def offer (x : Outside) (words : List Word) (first last : Nat) (code : Option Text) : List Text :=
  (code.filter (isPlausible x words first last)).toList

/-- The codes from the word number `index` on; the words from there are the last argument. -/
def candidatesFrom (x : Outside) (words : List Word) : Nat → List Word → List Text
  | _, [] => []
  | index, [word] => offer x words index index (codeOf word.text)
  | index, word :: next :: rest =>
    if isPair word.text next.text then
      offer x words index (index + 1) (some (word.text ++ next.text)) ++
        candidatesFrom x words (index + 2) rest
    else offer x words index index (codeOf word.text) ++ candidatesFrom x words (index + 1) (next :: rest)

/-- The codes one line offers, without their space or hyphen. -/
def candidates (x : Outside) (words : List Word) : List Text := candidatesFrom x words 0 words

/-! ## 2. The guess of a code -/

/-- `str::lines`: a last line that does not end keeps its carriage return. -/
def linesOf (text : Text) : List Text :=
  let lines := text.splitOn '\n'
  let last := lines.getLastD []
  (lines.dropLast.map fun line => if line.getLast? = some '\r' then line.dropLast else line) ++
    if last = [] then [] else [last]

/-- The line, or a line close to it if it is short, asks for a code. -/
def isNear (keyword : List Bool) (index : Nat) (words : List Word) : Bool :=
  keyword.getD index false ||
    (decide (words.length ≤ 3) &&
      ((index ≠ 0 && keyword.getD (index - 1) false) || (2 ≤ index && keyword.getD (index - 2) false) ||
        keyword.getD (index + 1) false))

/-- The codes of one line more, each once; nothing once there are two. -/
def collectLine (x : Outside) (keyword : List Bool) (found : List Text) (line : List Word × Nat) :
    Option (List Text) :=
  if isNear keyword line.2 line.1 then
    let found := (candidates x line.1).foldl (fun found code =>
      if found.contains code then found else found ++ [code]) found
    if found.length > 1 then none else some found
  else some found

def hasAny (text : Text) (needles : List String) : Bool := needles.any (has text)

/-- What the wording says the code is for.  Resetting a password says "sign in" too, so it goes
first. -/
def purposeOf (lower : Text) : Purpose :=
  if hasAny lower ["zurücksetzen", "reset", "passwort vergessen", "kennwort vergessen", "forgot",
    "neues passwort"] then
    .resetPassword
  else if hasAny lower ["registrier", "sign up", "signup", "konto erstellen", "create your account",
    "account erstellen"] then
    .signup
  else if hasAny lower ["e-mail-adresse bestätigen", "e-mail bestätigen", "email bestätigen",
    "confirm your email",
      "verify your email", "confirm your e-mail", "verify your e-mail"] then .confirmEmail
  else if hasAny lower ["anmeld", "login", "log in", "sign in", "sign-in", "einlogg"] then .login
  else .other

/-- A number of minutes or hours, in digits or as a word, and its unit. -/
def amountPattern : String :=
  "\\b(\\d\x7b1,3\x7d|einer|eine|ein|zwei|drei|vier|fünfzehn|fünf|zehn|zwanzig|dreißig|sechzig|an|a|one|two|three|four|fifteen|five|ten|twenty|thirty|sixty)\\s*(minuten|minutes|minute|min|stunden|stunde|hours|hour|std)\\b"

/-- Validity in the text: "gültig für 10 Minuten", "valid for 2 hours", "expires in 15 min", and the
other way round, "5 Minuten gültig". -/
def validityPatterns : List String :=
  ["(?i)(?:gültig|valid|expires?|läuft|verfällt)\\D\x7b0,30\x7d?" ++ amountPattern,
    "(?i)" ++ amountPattern ++ "\\s+(?:lang\\s+|long\\s+)?(?:gültig|valid)"]

/-- A number of minutes or hours, in digits or as a word. -/
def amount (word : Text) : Option Int :=
  (parseI64 word).or
    ((([(["ein", "eine", "einer", "an", "a", "one"], 1), (["zwei", "two"], 2), (["drei", "three"], 3),
          (["vier", "four"], 4), (["fünf", "five"], 5), (["zehn", "ten"], 10), (["fünfzehn", "fifteen"], 15),
          (["zwanzig", "twenty"], 20), (["dreißig", "thirty"], 30), (["sechzig", "sixty"], 60)] :
        List (List String × Int)).find? fun names => names.1.any (·.toList == word)).map (·.2))

/-- How long the text says the code or link is valid. -/
def validityOf (x : Outside) (lower : Text) : Int :=
  let said := (validityPatterns.findSome? fun pattern => x.captures pattern lower).bind fun groups => do
    let amount ← amount (← groups.getD 0 none)
    let unit ← groups.getD 1 none
    some (amount * if startsWith unit "min" then 60 else 3600)
  min ((said.filter fun seconds => decide (seconds > 0)).getD defaultValidity) maxValidity

/-- The one code in the text, what it is for and how long it is valid, or nothing when there is no
code or more than one. -/
def guess (x : Outside) (text : Text) : Option (Text × Purpose × Int) := do
  let lines := ((linesOf text).map (wordsOf x)).filter (!·.isEmpty)
  let found ← lines.zipIdx.foldlM (collectLine x (lines.map hasKeyword)) []
  let code ← found.getLast?
  some (code, purposeOf (x.toLowercase text), validityOf x (x.toLowercase text))

/-! ## 3. An HTML body as text, and its links -/

/-- At most `max` bytes of `text`, cut at a character boundary. -/
def cut : Nat → Text → Text
  | _, [] => []
  | max, c :: rest => if c.utf8Size ≤ max then c :: cut (max - c.utf8Size) rest else []

/-- `text.get(start..)`: nothing within a character. -/
def fromByte : Nat → Text → Option Text
  | 0, text => some text
  | _, [] => none
  | start, c :: rest => if c.utf8Size ≤ start then fromByte (start - c.utf8Size) rest else none

/-- Elements that stand on a line of their own in the text. -/
def blocks : List String :=
  ["address", "article", "aside", "blockquote", "br", "center", "dd", "div", "dl", "dt", "footer",
    "h1", "h2", "h3", "h4",
    "h5", "h6", "header", "hr", "li", "main", "nav", "ol", "p", "pre", "section", "table", "tbody",
      "td", "tfoot", "th",
    "thead", "title", "tr", "ul"]

/-- Elements whose content is no text. -/
def notText : List String := ["head", "style", "script", "template"]

/-- The visible text of an HTML body and its links, and the link that is being read. -/
structure Html where
  text : Text := []
  links : List (Text × Text) := []
  link : Option (Text × Nat) := none

/-- `href="…"`, `href='…'` or `href=…` inside a tag; `data-href` is no link. -/
def hrefPattern : String := "(?is)\\shref\\s*=\\s*(?:\"([^\"]*)\"|'([^']*)'|([^\\s\"'>]+))"

def isAsciiWhitespace (c : Char) : Bool := c == ' ' || c == '\t' || c == '\n' || c == '\r' || c == '\x0c'

/-- A piece of text between tags: entities decoded, white space folded into one space. -/
def pushHtmlText (x : Outside) (text piece : Text) : Text :=
  if piece.isEmpty then text
  else
    let spaceBefore := piece.head?.any isAsciiWhitespace
    let spaceAfter := piece.getLast?.any isAsciiWhitespace
    let decoded := Lib.trim isWhitespace (x.htmlToText piece)
    let atStart := text.isEmpty || text.getLast? == some ' ' || text.getLast? == some '\n'
    let text := if (spaceBefore || decoded.isEmpty && spaceAfter) && !atStart then text ++ [' '] else text
    if decoded.isEmpty then text else text ++ decoded ++ (if spaceAfter then [' '] else [])

/-- Splits in front of the first `needle`; nothing when there is none. -/
def splitAt? (needle : Text) : Text → Option (Text × Text)
  | [] => if needle = [] then some ([], []) else none
  | c :: rest =>
    if needle.isPrefixOf (c :: rest) then some ([], c :: rest)
    else (splitAt? needle rest).map fun split => (c :: split.1, split.2)

/-- The same in any case of the letters; what comes behind is empty when there is none. -/
def findTag (needle : String) (rest : Text) : Text × Text :=
  match splitAt? needle.toList (lower rest) with
  | some (before, _) => (rest.take before.length, rest.drop before.length)
  | none => (rest, [])

/-- The end of a link that is read. -/
def closeLink (read : Html) : Html :=
  match read.link with
  | none => read
  | some (href, start) =>
    let label := (fromByte (min start (byteLen read.text)) read.text).getD []
    { read with links := read.links ++ [(href, Lib.squash isWhitespace ' ' label)], link := none }

/-- What a tag does that is no comment, with what comes behind it. -/
def readTag (x : Outside) (read : Html) (tag rest : Text) : Html × Text :=
  let closing := (tag.drop 1).head? == some '/'
  let name := (((lower (tag.drop 1)).dropWhile (· == '/')).takeWhile Char.isAlphanum)
  if notText.any (·.toList == name) && !closing then (read, (findTag ("</" ++ String.ofList name) rest).2)
  else if blocks.any (·.toList == name) && read.text.getLast? != some '\n' then
    ({ read with text := read.text.rdropWhile (· == ' ') ++ ['\n'] }, rest)
  else if name = "a".toList then
    let read := closeLink read
    if closing then (read, rest)
    else
      let href := (x.captures hrefPattern tag).bind fun groups =>
        ((groups.getD 0 none).or (groups.getD 1 none)).or (groups.getD 2 none)
      ({ read with link := href.map fun href => (Lib.trim isWhitespace (x.htmlToText href), byteLen read.text) }, rest)
  else (read, rest)

/-- The loop over the rest of the body, a tag or a comment in each turn. -/
def readLoop (x : Outside) : Nat → Html → Text → Html
  | 0, read, _ => read
  | fuel + 1, read, rest =>
    if rest.isEmpty || byteLen read.text > maxText then read
    else
      let before := rest.takeWhile (· != '<')
      let tagged := rest.dropWhile (· != '<')
      let read := { read with text := pushHtmlText x read.text before }
      if tagged.isEmpty then read
      else if "<!--".toList.isPrefixOf tagged then
        readLoop x fuel read ((findTag "-->" tagged).2.drop 3)
      else
        let body := tagged.takeWhile (· != '>')
        let tag := tagged.take (body.length + 1)
        let (read, rest) := readTag x read tag (tagged.drop (body.length + 1))
        readLoop x fuel read rest

/-- Reads an HTML body as text, each block on a line of its own, and collects its links on the
way. -/
def readHtml (x : Outside) (html : Text) : Html :=
  let html := cut maxMessage html
  readLoop x (html.length + 1) {} html

/-! ## 4. The guess of a link -/

/-- What the button of a sign-in or confirmation link says, as a whole or at its start. -/
def linkButtons : List String :=
  ["sign in", "sign-in", "log in", "login", "anmelden", "jetzt anmelden", "einloggen",
    "jetzt einloggen", "verify", "confirm",
    "bestätigen", "jetzt bestätigen", "verifizieren", "e-mail bestätigen",
      "e-mail-adresse bestätigen", "email bestätigen",
    "e-mail verifizieren", "e-mail-adresse verifizieren", "reset password", "reset your password",
      "passwort zurücksetzen",
    "kennwort zurücksetzen"]

/-- What a mail with a link someone asked for says around it. -/
def linkSigns : List String :=
  ["didn't request", "didn’t request", "did not request", "didn't ask", "didn’t ask", "did not ask",
    "wasn't you",
    "wasn’t you", "link expires", "link will expire", "link is valid for", "nicht angefordert",
      "nicht angefragt",
    "nicht beantragt", "nicht du warst", "nicht von ihnen", "link ist nur", "link ist gültig",
      "link läuft", "link verfällt"]

/-- The first header of a name. -/
def Message.header (message : Message) (name : String) : Option Text :=
  (message.headersRaw.find? fun header => lower header.1 == lower name.toList).map (·.2)

/-- Whether a mail is list or notification traffic: a "Sign in" link planted in a comment would come
with the platform's DMARC pass. -/
def isListMail (message : Message) : Bool :=
  (message.header "List-Id").isSome || (message.header "In-Reply-To").isSome ||
    (message.header "References").isSome ||
    (message.header "Precedence").any fun value =>
      ["list", "bulk", "junk"].any (·.toList == lower (Lib.trim isWhitespace value))

/-- Whether a link carries another address in its query, the way a redirect does. -/
def redirects (url : Text) : Bool :=
  hasAny (lower (url.dropWhile (· != '?')).tail) ["=http", "=//", "%3a%2f%2f", "%2f%2f"]

def isButton (label : Text) : Bool :=
  linkButtons.any fun button =>
    label == button.toList || startsWith label (button ++ " ") && decide ((label.splitOn ' ').length ≤ 6)

/-- The link of one button more, each once; nothing once there are two. -/
def collectLink (x : Outside) (fromDomain : Text) (found : List Text) (link : Text × Text) :
    Option (List Text) :=
  if isButton (Lib.trim (fun c => !x.isAlphanumeric c) (x.toLowercase link.2)) then
    match (httpsBelow link.1 fromDomain).filter fun url => !redirects url with
    | none => some found
    | some url =>
      let found := if found.contains url then found else found ++ [url]
      if found.length > 1 then none else some found
  else some found

/-- The one sign-in or confirmation link of an HTML mail, what it is for and how long it is
valid. -/
def guessLink (x : Outside) (links : List (Text × Text)) (text fromDomain : Text) :
    Option (Text × Purpose × Int) :=
  if hasAny (x.toLowercase text) linkSigns then do
    let found ← links.foldlM (collectLink x fromDomain) []
    let url ← found.getLast?
    some (url, purposeOf (x.toLowercase text), validityOf x (x.toLowercase text))
  else none

/-! ## 5. `detect` -/

/-- What the guess reads: the subject, and the body as text. -/
def textOf (message : Message) (html : Option Html) : Text :=
  cut maxText
    ((message.subject.elim [] (· ++ ['\n'])) ++
      match message.textPart, html with
      | some (.html _), some html => html.text
      | _, _ => message.bodyText.getD [])

/-- The signed header, where there is exactly one. -/
def findHeader (x : Outside) (message : Message) (fromDomain : Text) (receivedAt : Int64) : Option Detected :=
  match (message.headersRaw.filter fun header => lower header.1 == lower "Verification-Info".toList).map (·.2) with
  | [value] => fromHeader x value fromDomain message.date receivedAt
  | _ => none

def findGuess (x : Outside) (message : Message) (fromDomain : Text) (receivedAt : Int64) : Option Detected :=
  let html := match message.htmlPart with
    | some (.html html) => some (readHtml x html)
    | _ => none
  let text := textOf message html
  match guess x text with
  | some (code, purpose, validity) =>
    some ⟨.otp, fromDomain, some code, none, purpose, saturatingAdd receivedAt.toInt validity,
      .heuristic, true⟩
  | none =>
    if isListMail message then none
    else do
      let (url, purpose, validity) ← guessLink x (← html).links text fromDomain
      some ⟨.link, fromDomain, none, some url, purpose, saturatingAdd receivedAt.toInt validity,
        .heuristic, true⟩

def find (x : Outside) (raw : List UInt8) (auth : Authenticity) (receivedAt : Int64) : Option Detected := do
  let message ← x.parseMessage raw
  let fromDomain ← registrableDomain x (← auth.fromDomain)
  if auth.dmarcPassed then
    ((if auth.headerSigned then findHeader x message fromDomain receivedAt else none).or
      (findGuess x message fromDomain receivedAt))
  else none

/-- Finds the code or link in `raw`, received at `receivedAt`.  The signed header wins; otherwise
the guess, and that only when DMARC passed.  A code that has already expired is no code, and a
message over `maxMessage` is not looked at. -/
def detect (x : Outside) (raw : List UInt8) (auth : Authenticity) (receivedAt : Int64) : Option Detected :=
  if raw.length > maxMessage then none
  else (find x raw auth receivedAt).filter fun found => decide (receivedAt.toInt < found.expiresAt)

/-! ## 6. What is detected -/

section
variable {x : Outside} {words : List Word} {code text : Text} {first last : Nat}

/-- What is guessed as a code: digits or capitals, between four and eight. -/
theorem goodCode_of_short (hchars : ∀ c ∈ code, c.isDigit = true ∨ c.isUpper = true) (hlong : 4 ≤ byteLen code)
    (hshort : byteLen code ≤ 8) : GoodCode code := by
  have hall : ∀ c ∈ code, c.isDigit = true ∨ c.isUpper = true ∨ c = '-' :=
    fun c hc => (hchars c hc).imp_right .inl
  rw [byteLen_ascii fun c hc => val_le_of_codeChar (hall c hc)] at hlong hshort
  refine ⟨⟨hlong, by omega⟩, hall, ?_⟩
  obtain ⟨c, rest, rfl⟩ := List.exists_cons_of_length_pos (Nat.lt_of_lt_of_le (by decide : 0 < 4) hlong)
  refine ⟨c, List.mem_cons_self, ?_⟩
  rintro rfl
  rcases hchars '-' List.mem_cons_self with h | h <;> cases h

theorem allDigits_iff : allDigits text = true ↔ text ≠ [] ∧ ∀ c ∈ text, c.isDigit = true := by
  unfold allDigits
  rw [Bool.and_eq_true, Bool.not_eq_true', List.isEmpty_eq_false_iff, List.all_eq_true]

theorem codeOf_spec (h : codeOf text = some code) : GoodCode code := by
  unfold codeOf at h
  split at h
  · next hdigits =>
    split at h
    · next hlen =>
      cases h
      exact goodCode_of_short (fun c hc => .inl ((allDigits_iff.1 hdigits).2 c hc)) hlen.1 hlen.2
    · cases h
  · split at h
    · dsimp only at h
      split at h
      · next hparts =>
        cases h
        obtain ⟨hleft, hright, -, -, hlong, hshort⟩ := hparts
        refine goodCode_of_short (fun c hc => .inl ?_) hlong hshort
        rcases List.mem_append.1 hc with hc | hc
        · exact (allDigits_iff.1 hleft).2 c hc
        · exact (allDigits_iff.1 hright).2 c hc
      · cases h
    · split at h
      · next hgood =>
        cases h
        simp only [Bool.and_eq_true, decide_eq_true_eq, List.all_eq_true, Bool.or_eq_true] at hgood
        obtain ⟨⟨⟨⟨hchars, -⟩, -⟩, hlong⟩, hshort⟩ := hgood
        exact goodCode_of_short (fun c hc => (hchars c hc).symm) (by omega) hshort
      · cases h

theorem isPair_spec {left right : Text} (h : isPair left right = true) : GoodCode (left ++ right) := by
  unfold isPair at h
  simp only [Bool.and_eq_true, decide_eq_true_eq] at h
  obtain ⟨⟨⟨hleft, hright⟩, hlong, hshort⟩, hlong', hshort'⟩ := h
  refine goodCode_of_short (fun c hc => .inl ?_) ?_ ?_
  · rcases List.mem_append.1 hc with hc | hc
    · exact (allDigits_iff.1 hleft).2 c hc
    · exact (allDigits_iff.1 hright).2 c hc
  · rw [byteLen_append]
    omega
  · rw [byteLen_append]
    omega

theorem mem_offer {offered : Option Text} (h : code ∈ offer x words first last offered) :
    offered = some code := by
  unfold offer at h
  rw [Option.mem_toList, Option.filter_eq_some_iff] at h
  exact h.1

theorem goodCode_candidatesFrom (index : Nat) (rest : List Word)
    (h : code ∈ candidatesFrom x words index rest) :
    GoodCode code := by
  fun_induction candidatesFrom x words index rest with
  | case1 => cases h
  | case2 index word => exact codeOf_spec (mem_offer h)
  | case3 index word next rest hpair ih =>
    rcases List.mem_append.1 h with h | h
    · cases mem_offer h
      exact isPair_spec hpair
    · exact ih h
  | case4 index word next rest hpair ih =>
    rcases List.mem_append.1 h with h | h
    · exact codeOf_spec (mem_offer h)
    · exact ih h

/-- A loop that may stop keeps what each of its turns keeps. -/
theorem foldlM_invariant {α β : Type} {step : β → α → Option β} {P : β → Prop} {list : List α} {b b' : β}
    (hstep : ∀ b a b', P b → step b a = some b' → P b') (hb : P b)
        (h : list.foldlM step b = some b') : P b' := by
  induction list generalizing b with
  | nil =>
    cases h
    exact hb
  | cons a list ih =>
    rw [List.foldlM_cons] at h
    obtain ⟨next, hnext, h⟩ := Option.bind_eq_some_iff.1 h
    exact ih (hstep b a next hb hnext) h

theorem goodCode_collectLine {keyword : List Bool} {found found' : List Text} {line : List Word × Nat}
    (hfound : ∀ code ∈ found, GoodCode code) (h : collectLine x keyword found line = some found') :
    ∀ code ∈ found', GoodCode code := by
  unfold collectLine at h
  split at h
  · dsimp only at h
    split at h
    · cases h
    · next hone =>
      clear hone
      cases h
      have hcandidates : ∀ code ∈ candidates x line.1, GoodCode code := fun code hcode =>
        goodCode_candidatesFrom 0 line.1 hcode
      generalize candidates x line.1 = codes at hcandidates ⊢
      induction codes generalizing found with
      | nil => exact hfound
      | cons code codes ih =>
        rw [List.forall_mem_cons] at hcandidates
        rw [List.foldl_cons]
        split
        · exact ih hfound hcandidates.2
        · refine ih ?_ hcandidates.2
          rw [List.forall_mem_append, List.forall_mem_singleton]
          exact ⟨hfound, hcandidates.1⟩
  · cases h
    exact hfound

theorem validityOf_le (x : Outside) (lower : Text) : validityOf x lower ≤ maxValidity := min_le_right _ _

/-- **What is guessed as a code is one**, and not valid for longer than a day. -/
theorem guess_spec {purpose : Purpose} {validity : Int} (h : guess x text = some (code, purpose, validity)) :
    GoodCode code ∧ validity ≤ maxValidity := by
  unfold guess at h
  simp only [Option.bind_eq_bind, Option.bind_eq_some_iff, Option.some.injEq, Prod.mk.injEq] at h
  obtain ⟨found, hfound, code', hcode, rfl, -, rfl⟩ := h
  have hall : ∀ code ∈ found, GoodCode code :=
    foldlM_invariant (P := fun found => ∀ code ∈ found,
      GoodCode code) (fun _ _ _ hb h => goodCode_collectLine hb h)
      (by rintro _ ⟨⟩) hfound
  exact ⟨hall code' (List.mem_of_getLast? hcode), validityOf_le _ _⟩

theorem link_collectLink {fromDomain : Text} {found found' : List Text} {link : Text × Text}
    (hfound : ∀ url ∈ found, HttpsBelow url fromDomain)
      (h : collectLink x fromDomain found link = some found') :
    ∀ url ∈ found', HttpsBelow url fromDomain := by
  unfold collectLink at h
  split at h
  · split at h
    · cases h
      exact hfound
    · next url hurl =>
      obtain ⟨hkept, -⟩ := Option.filter_eq_some_iff.1 hurl
      obtain ⟨rfl, hlink⟩ := httpsBelow_spec hkept
      have hnew : ∀ url ∈ if found.contains link.1 then found
          else found ++ [link.1], HttpsBelow url fromDomain := by
        split
        · exact hfound
        · rw [List.forall_mem_append, List.forall_mem_singleton]
          exact ⟨hfound, hlink⟩
      dsimp only at h
      generalize (if found.contains link.1 then found else found ++ [link.1]) = new at h hnew
      split at h
      · cases h
      · cases h
        exact hnew
  · cases h
    exact hfound

/-- **What is guessed as a link leads to the sender.** -/
theorem guessLink_spec {links : List (Text × Text)} {fromDomain url : Text} {purpose : Purpose}
    {validity : Int}
    (h : guessLink x links text fromDomain = some (url, purpose, validity)) :
    HttpsBelow url fromDomain ∧ validity ≤ maxValidity := by
  unfold guessLink at h
  split at h
  · simp only [Option.bind_eq_bind, Option.bind_eq_some_iff, Option.some.injEq, Prod.mk.injEq] at h
    obtain ⟨found, hfound, url', hurl, rfl, -, rfl⟩ := h
    have hall : ∀ url ∈ found, HttpsBelow url fromDomain :=
      foldlM_invariant (P := fun found => ∀ url ∈ found, HttpsBelow url fromDomain)
        (fun _ _ _ hb h => link_collectLink hb h)
        (by rintro _ ⟨⟩) hfound
    exact ⟨hall url' (List.mem_of_getLast? hurl), validityOf_le _ _⟩
  · cases h

theorem findGuess_spec {message : Message} {fromDomain : Text} {receivedAt : Int64} {found : Detected}
    (hown : registrableDomain x fromDomain = some fromDomain)
      (h : findGuess x message fromDomain receivedAt = some found) :
    Trustworthy x fromDomain receivedAt found := by
  unfold findGuess at h
  dsimp only at h
  split at h
  · next code purpose validity hguess =>
    cases h
    obtain ⟨hcode, hvalidity⟩ := guess_spec hguess
    refine ⟨hown, saturatingAdd_le le_rfl hvalidity, fun code' hcode' => ?_, fun _ hurl => nomatch hurl⟩
    cases hcode'
    exact hcode
  · split at h
    · cases h
    · simp only [Option.bind_eq_bind, Option.bind_eq_some_iff] at h
      obtain ⟨html, -, ⟨url, purpose, validity⟩, hguess, h⟩ := h
      cases h
      obtain ⟨hlink, hvalidity⟩ := guessLink_spec hguess
      refine ⟨hown, saturatingAdd_le le_rfl hvalidity, fun _ hcode => (nomatch hcode), fun url' hurl' => ?_⟩
      cases hurl'
      exact hlink

end

/-- **What is detected is trustworthy**: DMARC passed, the origin is of the registrable domain of
the From address, the time of receipt is before the end, which is a day away at most, a code is made
of the characters of a code, and a link is one to the origin or below it. -/
theorem detect_trustworthy (x : Outside) (hx : x.Registry) (raw : List UInt8) (auth : Authenticity)
    (receivedAt : Int64)
    (found : Detected) (h : detect x raw auth receivedAt = some found) :
    auth.dmarcPassed = true ∧ receivedAt.toInt < found.expiresAt ∧
      ∃ sender fromDomain, auth.fromDomain = some sender ∧ registrableDomain x sender = some fromDomain ∧
        Trustworthy x fromDomain receivedAt found := by
  unfold detect at h
  split at h
  · cases h
  · obtain ⟨hfind, hlater⟩ := Option.filter_eq_some_iff.1 h
    unfold find at hfind
    simp only [Option.bind_eq_bind, Option.bind_eq_some_iff] at hfind
    obtain ⟨message, -, sender, hsender, fromDomain, hdomain, hfind⟩ := hfind
    split at hfind
    · next hdmarc =>
      refine ⟨hdmarc, of_decide_eq_true hlater, sender, fromDomain, hsender, hdomain, ?_⟩
      rcases Option.or_eq_some_iff.1 hfind with hheader | ⟨-, hguess⟩
      · split at hheader
        · unfold findHeader at hheader
          split at hheader
          · exact fromHeader_spec hheader
          · cases hheader
        · cases hheader
      · exact findGuess_spec (registrableDomain_own hx hdomain) hguess
    · cases hfind

/-! ### A mail with a header -/

def shopInfo : Text := "kind=otp; origin=login.shop.example; code=4711-AB; expires=2026-11-01T17:05:00Z".toList

def shopMail : List UInt8 :=
  ("From: Shop <no-reply@shop.example>\r\nVerification-Info: ".toList ++ shopInfo ++
      "\r\n\r\n".toList).map fun c =>
    UInt8.ofNat c.toNat

def shopMessage : Message :=
  ⟨[("From".toList, " Shop <no-reply@shop.example>\r\n".toList),
    ("Verification-Info".toList, ' ' :: shopInfo ++ "\r\n".toList)], none, none, none, none, none⟩

def shopCode : Detected :=
  ⟨.otp, "login.shop.example".toList, some "4711-AB".toList, none, .other, 1793552700, .header, true⟩

/-- What is known outside of that mail and its sender. -/
def shopOutside : Outside where
  pslDomain host :=
    if host = "shop.example".toList ∨ ".shop.example".toList <:+ host then some "shop.example".toList else none
  parseMessage raw := if raw = shopMail then some shopMessage else none
  htmlToText text := text
  toLowercase := lower
  isAlphanumeric c := c.isAlphanum
  isUppercase c := c.isUpper
  captures _ _ := none
  parseRfc3339 text := if text = "2026-11-01T17:05:00Z".toList then some 1793552700 else none

theorem shopOutside_registry : shopOutside.Registry := by
  have hown : ∀ host domain, shopOutside.pslDomain host = some domain → domain = "shop.example".toList ∧
      (host = "shop.example".toList ∨ ".shop.example".toList <:+ host) := by
    intro host domain h
    obtain ⟨hhost, heq⟩ := Option.ite_none_right_eq_some.1 h
    exact ⟨(Option.some.inj heq).symm, hhost⟩
  refine ⟨fun host domain h => ?_, fun host domain h => ?_, fun host domain h => ?_⟩
  · obtain ⟨rfl, hhost⟩ := hown host domain h
    exact hhost
  · obtain ⟨rfl, -⟩ := hown host domain h
    decide
  · obtain ⟨rfl, -⟩ := hown host domain h
    decide

theorem detect_shop :
    detect shopOutside shopMail ⟨true, true, some "shop.example".toList⟩ 1793552400 = some shopCode := by
  have hparse : ∀ raw, shopOutside.parseMessage raw = if raw = shopMail then some shopMessage
    else none := fun _ => rfl
  unfold detect find
  rw [hparse, if_pos rfl]
  decide +kernel

theorem detect_trustworthy_shop : true = true ∧ (1793552400 : Int64).toInt < shopCode.expiresAt ∧
    ∃ sender fromDomain, some "shop.example".toList = some sender ∧
      registrableDomain shopOutside sender = some fromDomain ∧
      Trustworthy shopOutside fromDomain 1793552400 shopCode :=
  detect_trustworthy shopOutside shopOutside_registry shopMail ⟨true, true,
    some "shop.example".toList⟩ 1793552400 shopCode
    detect_shop

end UwuMail.Store.Verification
