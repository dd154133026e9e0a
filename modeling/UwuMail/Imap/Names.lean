/-
# Mailbox names as IMAP shows them

`mailboxes.rs`: full paths with `/` between the levels, `INBOX` for the inbox whatever it is called,
and other people's mailboxes under `Shared/<their login>/`.  A path is built from the mailbox up,
and it is a TEXT: what `find` compares are paths, not lists of levels, so a `/` inside a name is not
told from one between two names.

`path_of` stops after 65 names, and the mailbox tree may be deeper than that where a subtree was
moved. What a path says of two mailboxes one inside the other is therefore said of the lists of
names (`namesUp_below`), and of the paths only as far as the limit lets it (`pathOf_below`).
-/
import UwuMail.Imap.Pattern
import UwuMail.Store.Acl
import UwuMail.Store.Forest
import UwuMail.Lib.SortedMap

namespace UwuMail.Imap

open Store Pattern

/-! ## 1. Paths -/

abbrev Path := List Char

/-- `names.join("/")` -/
def joined (levels : List Path) : Path := [separator].intercalate levels

/-- `path.split('/')` -/
def levelsOf (path : Path) : List Path := path.splitOn separator

/-- `split_once('/')` -/
def splitOnce (path : Path) : Option (Path × Path) :=
  match levelsOf path with
  | first :: level :: levels => some (first, joined (level :: levels))
  | _ => none

/-- `rsplit_once('/')` -/
def rsplitOnce (path : Path) : Option (Path × Path) :=
  match (levelsOf path).reverse with
  | last :: level :: levels => some (joined (level :: levels).reverse, last)
  | _ => none

/-- `inbox/Foo/` is `INBOX/Foo`. -/
def normalize (path : Path) : Path :=
  let trimmed := path.rdropWhile (· == separator)
  match splitOnce trimmed with
  | some (first, rest) => if eqIgnoreAsciiCase first inbox then inbox ++ separator :: rest else trimmed
  | none => if eqIgnoreAsciiCase trimmed inbox then inbox else trimmed

/-- Whether `path_of` ends at the mailbox and calls it INBOX. -/
def isTopInbox (mailbox : ImapMailbox) : Bool := mailbox.role == some .inbox && mailbox.parentId.isNone

/-- The loop of `path_of`, from a mailbox up; `left` counts down from the limit. -/
def namesUp (byId : Int → Option ImapMailbox) : Nat → Option ImapMailbox → List Path
  | 0, _ => []
  | _ + 1, none => []
  | left + 1, some mailbox =>
    if isTopInbox mailbox then [inbox]
    else mailbox.name.toList :: namesUp byId left (mailbox.parentId.bind byId)

/-- The most names a path has. -/
def maxLevels : Nat := 65

def byId (mailboxes : List ImapMailbox) (id : Int) : Option ImapMailbox := mailboxes.find? fun m => m.id == id

def pathOf (mailboxes : List ImapMailbox) (mailbox : ImapMailbox) : Path :=
  joined (namesUp (byId mailboxes) maxLevels (some mailbox)).reverse

/-! ## 2. The mailboxes of a session -/

structure Named where
  mailbox : ImapMailbox
  path : Path
  hasChildren : Bool
  /-- The account the mailbox belongs to. -/
  owner : Int
  /-- What the session may do with it: everything with its own. -/
  rights : String
  /-- Only a level of the shared namespace: listed, never selected. -/
  placeholder : Bool

def Named.may (n : Named) (rights : String) : Bool := !n.placeholder && hasRights n.rights rights

/-- INBOX first. -/
def Named.rank (n : Named) : Nat := if isTopInbox n.mailbox then 0 else 1

/-- `named`: the mailboxes of an account, INBOX first and then by path. -/
def named (mailboxes : List ImapMailbox) (owner : Int) : List Named :=
  (mailboxes.map fun mailbox =>
    { mailbox, path := pathOf mailboxes mailbox
      hasChildren := mailboxes.any fun other => other.parentId == some mailbox.id
      owner, rights := allRights, placeholder := false : Named }).insertionSort
    fun a b => a.rank < b.rank ∨ a.rank = b.rank ∧ a.path ≤ b.path

def sharedPrefix : Path := ['S', 'h', 'a', 'r', 'e', 'd']

/-- A level that is no mailbox. -/
def placeholderAt (path : Path) (owner : Int) : Named where
  mailbox :=
    { id := 0, parentId := none, name := String.ofList ((levelsOf path).getLastD path), role := none
      subscribed := true, uidValidity := asU32 1, uidNext := asU32 1 }
  path := path
  hasChildren := true
  owner := owner
  rights := ""
  placeholder := true

/-- `entry(path).or_insert` -/
def orInsert (byPath : SortedMap Path Named) (path : Path) (owner : Int) : SortedMap Path Named :=
  if (byPath.get? path).isSome then byPath else byPath.insert path (placeholderAt path owner)

/-- One turn of the loop of `shared_named`: the levels above the mailbox, and the mailbox. -/
def addShared (trees : Int → List ImapMailbox) (byPath : SortedMap Path Named) (entry : SharedMailbox) :
    SortedMap Path Named :=
  match byId (trees entry.ownerId) entry.mailbox.id with
  | none => byPath
  | some own =>
    let ownPath := pathOf (trees entry.ownerId) own
    let above := sharedPrefix ++ separator :: entry.ownerLogin.toList
    let levels := levelsOf ownPath
    let byPath := orInsert byPath above entry.ownerId
    let byPath := (List.range (levels.length - 1)).foldl (fun byPath depth =>
      orInsert byPath (above ++ separator :: joined (levels.take (depth + 1))) entry.ownerId) byPath
    let path := above ++ separator :: ownPath
    byPath.insert path
      { mailbox := { entry.mailbox with role := none, subscribed := true }, path, hasChildren := false
        owner := entry.ownerId, rights := entry.rights, placeholder := false }

/-- `shared_named`, by path. -/
def sharedNamed (shared : List SharedMailbox) (trees : Int → List ImapMailbox) : List Named :=
  if shared.isEmpty then []
  else
    let start := (SortedMap.empty : SortedMap Path Named).insert sharedPrefix (placeholderAt sharedPrefix 0)
    let byPath := (shared.foldl (addShared trees) start).entries
    byPath.map fun (path, n) =>
      { n with hasChildren := byPath.any fun other => (path ++ [separator]).isPrefixOf other.1 }

/-- `Session::named`: the account's own mailboxes and those shared with it.  An own folder of the
same name wins. -/
def sessionNamed (db : Db) (me : Int) : List Named :=
  (sharedNamed (mailboxesSharedWith db me) (imapMailboxes db)).foldl
    (fun named entry => if named.any fun own => own.path == entry.path then named else named ++ [entry])
    (named (imapMailboxes db me) me)

def find (named : List Named) (path : Path) : Option Named :=
  let path := normalize path
  named.find? fun n => n.path == path

/-- `split_shared`: the login, and the part of a shared path after it. -/
def splitShared (path : Path) : Option (Path × Path) :=
  if (sharedPrefix ++ [separator]).isPrefixOf path
    then splitOnce (path.drop (sharedPrefix.length + 1)) else none

/-! ## 3. What a path is made of -/

section NamesUp

variable {look look' : Int → Option ImapMailbox} {s x : Int}

theorem namesUp_inside {mailbox : ImapMailbox} {p : Int} (h : mailbox.parentId = some p) (left : Nat) :
    namesUp look (left + 1) (some mailbox) = mailbox.name.toList :: namesUp look left (look p) := by
  have hnot : isTopInbox mailbox = false := by simp [isTopInbox, h]
  simp only [namesUp, hnot, h, Option.bind_some]
  rfl

/-- Mailboxes that no way up leads to do not count. -/
theorem namesUp_congr {S : Int → Prop} (hsame : ∀ x, S x → look' x = look x)
    (hup : ∀ x m p, S x → look x = some m → m.parentId = some p → S p) :
    ∀ left x, S x → namesUp look' left (look' x) = namesUp look left (look x)
  | 0, _, _ => rfl
  | left + 1, x, hx => by
    rw [hsame x hx]
    cases hm : look x with
    | none => rfl
    | some m =>
      cases hp : m.parentId with
      | none => simp only [namesUp, hp, Option.bind_none]; cases left <;> rfl
      | some p =>
        rw [namesUp_inside hp, namesUp_inside hp, namesUp_congr hsame hup left p (hup x m p hx hm hp)]

/-- The parent of a mailbox a session sees. -/
def upOf (look : Int → Option ImapMailbox) (x : Int) : Option Int := (look x).bind (·.parentId)

/-- **A mailbox inside another one** has the names between the two on top of the names of that one,
also when nothing but that one was changed. -/
theorem namesUp_below (hsame : ∀ x, x ≠ s → look' x = look x) {n k : Nat}
    (hs : Forest.Depth (upOf look) (some s) n) (h : Forest.Below (upOf look) s x k) :
    ∃ inner : List Path, inner.length = k ∧ ∀ left,
      namesUp look (k + left) (look x) = inner ++ namesUp look left (look s) ∧
        namesUp look' (k + left) (look' x) = inner ++ namesUp look' left (look' s) := by
  induction h with
  | refl => exact ⟨[], rfl, fun left => by simp⟩
  | @step y z k hy hbelow ih =>
    obtain ⟨inner, hlength, hinner⟩ := ih
    obtain ⟨m, hm, hp⟩ := Option.bind_eq_some_iff.1 hy
    have hne : y ≠ s := by
      rintro rfl
      have hdepth := (Forest.Below.step hy hbelow).depth hs
      have := hs.unique hdepth
      omega
    refine ⟨m.name.toList :: inner, by simp [hlength], fun left => ?_⟩
    rw [hsame y hne, hm, show k + 1 + left = k + left + 1 by omega, namesUp_inside hp, namesUp_inside hp,
      (hinner left).1, (hinner left).2]
    exact ⟨rfl, rfl⟩

/-- A limit the way up does not reach makes no difference. -/
theorem namesUp_limit {q : Option Int} {n : Nat} (h : Forest.Depth (upOf look) q n) {left left' : Nat}
    (hl : n ≤ left) (hl' : n ≤ left') : namesUp look left (q.bind look) =
        namesUp look left' (q.bind look) := by
  induction h generalizing left left' with
  | root => cases left <;> cases left' <;> rfl
  | @node x n _ h ih =>
    obtain ⟨left, rfl⟩ : ∃ l, left = l + 1 := ⟨left - 1, by omega⟩
    obtain ⟨left', rfl⟩ : ∃ l, left' = l + 1 := ⟨left' - 1, by omega⟩
    rw [Option.bind_some]
    cases hm : look x with
    | none => rfl
    | some m =>
      have ih := @ih left left' (by omega) (by omega)
      rw [upOf, hm, Option.bind_some] at ih
      simp only [namesUp, ih]

end NamesUp

theorem joined_cons_cons (first level : Path) (levels : List Path) :
    joined (first :: level :: levels) = first ++ separator :: joined (level :: levels) := by
  simp [joined, List.intercalate]

/-- What comes after the first levels. -/
theorem joined_append {outer : List Path} (h : outer ≠ []) (inner : List Path) :
    joined (outer ++ inner) = joined outer ++ inner.flatMap (separator :: ·) := by
  induction outer generalizing inner with
  | nil => exact absurd rfl h
  | cons level outer ih =>
    cases outer with
    | cons next outer =>
      have := ih (by simp) inner
      rw [List.cons_append, List.cons_append, joined_cons_cons, joined_cons_cons, ← List.cons_append, this]
      simp
    | nil =>
      clear ih
      induction inner generalizing level with
      | nil => simp
      | cons next inner ih =>
        have := ih next (by simp)
        rw [List.singleton_append] at this ⊢
        rw [joined_cons_cons, this]
        simp [joined, List.intercalate]

section PathOf

variable {mailboxes mailboxes' : List ImapMailbox} {s x : Int}
  {own own' mailbox mailbox' : ImapMailbox}

theorem namesUp_ne_nil (look : Int → Option ImapMailbox) (left : Nat) (mailbox : ImapMailbox) :
    namesUp look (left + 1) (some mailbox) ≠ [] := by
  unfold namesUp
  split <;> simp

/-- **The path of a mailbox inside another one** starts with the path of that one, and goes on the
same way after that one alone was changed; unless it lies deeper than a path says. -/
theorem pathOf_below (hsame : ∀ x, x ≠ s → byId mailboxes' x = byId mailboxes x) {n k d d' : Nat}
    (hs : Forest.Depth (upOf (byId mailboxes)) (some s) n)
      (hbelow : Forest.Below (upOf (byId mailboxes)) s x k)
    (hx : Forest.Depth (upOf (byId mailboxes)) (some x) d) (hd : d ≤ maxLevels)
    (hx' : Forest.Depth (upOf (byId mailboxes')) (some x) d') (hd' : d' ≤ maxLevels)
    (hown : byId mailboxes s = some own) (hown' : byId mailboxes' s = some own')
    (hmailbox : byId mailboxes x = some mailbox) (hmailbox' : byId mailboxes' x = some mailbox') :
    ∃ rest, pathOf mailboxes mailbox = pathOf mailboxes own ++ rest ∧
      pathOf mailboxes' mailbox' = pathOf mailboxes' own' ++ rest := by
  obtain ⟨inner, -, hinner⟩ := namesUp_below hsame hs hbelow
  obtain ⟨hold, hnew⟩ := hinner maxLevels
  have hlimit := namesUp_limit hx hd (show d ≤ k + maxLevels by omega)
  have hlimit' := namesUp_limit hx' hd' (show d' ≤ k + maxLevels by omega)
  rw [Option.bind_some, hold, hmailbox, hown] at hlimit
  rw [Option.bind_some, hnew, hmailbox', hown'] at hlimit'
  refine ⟨inner.reverse.flatMap (separator :: ·), ?_, ?_⟩
  · rw [pathOf, pathOf, hlimit, List.reverse_append]
    exact joined_append (List.reverse_ne_nil_iff.2 (namesUp_ne_nil (byId mailboxes) 64 own)) _
  · rw [pathOf, pathOf, hlimit', List.reverse_append]
    exact joined_append (List.reverse_ne_nil_iff.2 (namesUp_ne_nil (byId mailboxes') 64 own')) _

/-- The path of a mailbox inside another one, by the names. -/
theorem pathOf_inside {parent : Int} (hp : mailbox.parentId = some parent)
    (hown : byId mailboxes parent = some own)
    {d : Nat} (hx : Forest.Depth (upOf (byId mailboxes)) (some parent) d) (hd : d < maxLevels) :
    pathOf mailboxes mailbox = pathOf mailboxes own ++ separator :: mailbox.name.toList := by
  have hlimit := namesUp_limit hx (show d ≤ maxLevels by omega) (show d ≤ 64 from Nat.le_of_lt_succ hd)
  rw [Option.bind_some, hown] at hlimit
  rw [pathOf, pathOf, hlimit, maxLevels, namesUp_inside hp, hown, List.reverse_cons,
    joined_append (List.reverse_ne_nil_iff.2 (namesUp_ne_nil (byId mailboxes) 63 own))]
  simp

theorem pathOf_top (hp : mailbox.parentId = none) :
    pathOf mailboxes mailbox = if mailbox.role = some .inbox then inbox else mailbox.name.toList := by
  have hnone : namesUp (byId mailboxes) 64 none = [] := rfl
  simp only [pathOf, maxLevels, namesUp, isTopInbox, hp, Option.bind_none, hnone]
  by_cases h : mailbox.role = some .inbox <;> simp [h, joined, List.intercalate]

end PathOf

/-! ## 4. What a session is shown -/

section Session

variable {db : Db} {me : Int} {n : Named}

/-- What stands before the paths of an account: nothing for its own, `Shared/<login>/` for
another. -/
def Above (me owner : Int) (above : Path) : Prop :=
  owner = me ∧ above = [] ∨ ∃ login, above = sharedPrefix ++ separator :: login ++ [separator]

/-- The entry is a mailbox of its owner, under the path the owner sees it by. -/
def Shows (db : Db) (me : Int) (n : Named) : Prop :=
  n.placeholder = false ∧ ∃ mailbox ∈ imapMailboxes db n.owner, mailbox.id = n.mailbox.id ∧
    ∃ above, Above me n.owner above ∧ n.path = above ++ pathOf (imapMailboxes db n.owner) mailbox

/-- The entry is only a level of the shared namespace. -/
structure Named.Level (n : Named) : Prop where
  placeholder : n.placeholder = true
  id : n.mailbox.id = 0
  path : n.path = sharedPrefix ∨ ∃ login, n.path = sharedPrefix ++ separator :: login

theorem shows_of_named (h : n ∈ named (imapMailboxes db me) me) : Shows db me n := by
  obtain ⟨mailbox, hmem, rfl⟩ := List.mem_map.1 ((List.perm_insertionSort _ _).mem_iff.1 h)
  exact ⟨rfl, mailbox, hmem, rfl, [], .inl ⟨rfl, rfl⟩, rfl⟩

/-- The entries so far are levels and mailboxes of their owners. -/
def Kept (db : Db) (me : Int) (byPath : SortedMap Path Named) : Prop :=
  ∀ e ∈ byPath.entries, e.2.Level ∨ Shows db me e.2

theorem Kept.insert {byPath : SortedMap Path Named} {path : Path} (h : Kept db me byPath)
    (hn : n.Level ∨ Shows db me n) : Kept db me (byPath.insert path n) := by
  intro e he
  rcases SortedMap.mem_insert he with rfl | he
  · exact hn
  · exact h e he

theorem Kept.orInsert {byPath : SortedMap Path Named} {owner : Int} (h : Kept db me byPath) (login : Path) :
    Kept db me (orInsert byPath (sharedPrefix ++ separator :: login) owner) := by
  unfold Imap.orInsert
  split
  · exact h
  · exact h.insert (.inl ⟨rfl, rfl, .inr ⟨login, rfl⟩⟩)

theorem Kept.addShared {byPath : SortedMap Path Named} {entry : SharedMailbox} (h : Kept db me byPath) :
    Kept db me (addShared (imapMailboxes db) byPath entry) := by
  unfold Imap.addShared
  split
  · exact h
  · rename_i own hown
    have hlevels : ∀ (depths : List Nat) {byPath : SortedMap Path Named}, Kept db me byPath →
        ∀ path : Nat → Path, Kept db me (depths.foldl (fun byPath depth =>
          Imap.orInsert byPath (sharedPrefix ++ separator :: path depth) entry.ownerId) byPath) := by
      intro depths
      induction depths with
      | nil => exact fun h _ => h
      | cons depth depths ih => exact fun h path => ih (h.orInsert (path depth)) path
    have hkept := hlevels (List.range ((levelsOf (pathOf (imapMailboxes db entry.ownerId) own)).length - 1))
      (@Kept.orInsert _ _ _ entry.ownerId h entry.ownerLogin.toList) fun depth => entry.ownerLogin.toList ++
        separator :: joined ((levelsOf (pathOf (imapMailboxes db entry.ownerId) own)).take (depth + 1))
    have hshows : Shows db me
        { mailbox := { entry.mailbox with role := none, subscribed := true }
          path := sharedPrefix ++ separator :: entry.ownerLogin.toList ++ separator ::
            pathOf (imapMailboxes db entry.ownerId) own
          hasChildren := false, owner := entry.ownerId, rights := entry.rights, placeholder := false } := by
      refine ⟨rfl, own, List.mem_of_find?_eq_some hown, by simpa using List.find?_some hown, _,
        .inr ⟨entry.ownerLogin.toList, rfl⟩, ?_⟩
      simp
    simp only [List.append_assoc, List.cons_append] at hkept hshows ⊢
    exact hkept.insert (.inr hshows)

theorem shows_of_sharedNamed (h : n ∈ sharedNamed (mailboxesSharedWith db me) (imapMailboxes db)) :
    n.Level ∨ Shows db me n := by
  unfold sharedNamed at h
  split at h
  · cases h
  · have hkept : ∀ (shared : List SharedMailbox) {byPath : SortedMap Path Named}, Kept db me byPath →
        Kept db me (shared.foldl (addShared (imapMailboxes db)) byPath) := by
      intro shared
      induction shared with
      | nil => exact fun h => h
      | cons entry shared ih => exact fun h => ih h.addShared
    obtain ⟨⟨path, n'⟩, hmem, rfl⟩ := List.mem_map.1 h
    have hstart : Kept db me ((SortedMap.empty : SortedMap Path Named).insert sharedPrefix
        (placeholderAt sharedPrefix 0)) :=
      Kept.insert (fun e he => by cases he) (.inl ⟨rfl, rfl, .inl rfl⟩)
    rcases hkept _ hstart _ hmem with h | h
    · exact .inl ⟨h.placeholder, h.id, h.path⟩
    · exact .inr h

/-- **Everything a session is shown** is a level of the shared namespace or a mailbox under its
owner's path. -/
theorem shows_of_sessionNamed (h : n ∈ sessionNamed db me) : n.Level ∨ Shows db me n := by
  have hall : ∀ (shared own : List Named), (∀ n ∈ own, n.Level ∨ Shows db me n) →
      (∀ n ∈ shared, n.Level ∨ Shows db me n) →
      ∀ n ∈ shared.foldl (fun named entry =>
        if named.any fun own => own.path == entry.path then named else named ++ [entry]) own,
        n.Level ∨ Shows db me n := by
    intro shared
    induction shared with
    | nil => exact fun own hown _ => hown
    | cons entry shared ih =>
      intro own hown hshared
      refine ih _ ?_ fun n hn => hshared n (List.mem_cons_of_mem _ hn)
      dsimp only
      split
      · exact hown
      · intro n hn
        rcases List.mem_append.1 hn with hn | hn
        · exact hown n hn
        · rw [List.mem_singleton.1 hn]
          exact hshared entry List.mem_cons_self
  exact hall _ _ (fun n hn => .inr (shows_of_named hn)) (fun n hn => shows_of_sharedNamed hn) n h

theorem find_spec {path : Path} (h : find (sessionNamed db me) path = some n) :
    n.path = normalize path ∧ (n.Level ∨ Shows db me n) :=
  ⟨by simpa using List.find?_some h, shows_of_sessionNamed (List.mem_of_find?_eq_some h)⟩

end Session

end UwuMail.Imap
