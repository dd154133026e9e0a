/-
# CREATE and RENAME

`create` and `rename`: the superior levels of a path that do not exist yet are made first, one by
one, each in a transaction of its own, and only then comes the step that may still be refused: the
last level of CREATE, the move of RENAME.  Nothing takes them back.  So a command that is answered
with NO may leave some of the missing SUPERIOR levels behind, one inside the other (`Added`); what
was there before keeps its row and its path.

A RENAME that is answered with OK gives one mailbox another name and another parent (`Moved`), where
the name is the last level of the path WITHOUT the blanks around it.  What is inside goes along, and
everything else keeps its path.
-/
import UwuMail.Imap.Names

namespace UwuMail.Imap

open Store Pattern Forest

/-! ## 1. The commands -/

/-- How a command ends. -/
inductive Reply where
  | ok
  | no
  | bad
  deriving DecidableEq

/-- A level of nothing but blanks. -/
def blank (level : Path) : Bool := trim (String.ofList level) == ""

/-- The deepest level of a path that exists already, and how deep it is; at most `depth`. -/
def deepest (named : List Named) (levels : List Path) : Nat → Option (Nat × Named)
  | 0 => none
  | depth + 1 =>
    match find named (joined (levels.take (depth + 1))) with
    | some found => some (depth + 1, found)
    | none => deepest named levels depth

/-- `is_inbox`: whether a mailbox is an inbox, its owner's or ours. -/
def isInbox (found : Named) : Bool :=
  found.path == inbox || (splitShared found.path).any fun (_, inner) => inner == inbox

section Commands

/- The clock, and who is logged in. -/
variable (now me : Int)

/-- Whose mailbox the new one becomes, and the parent it gets; `none` where that is not allowed. -/
def placeOf : Option (Nat × Named) → Option (Int × Option Int)
  | none => some (me, none)
  | some (_, found) =>
    if found.owner == me && !found.placeholder then some (me, some found.mailbox.id)
    else if found.may "k" then some (found.owner, some found.mailbox.id)
    else none

/-- The loop of `create` over the levels that are missing. -/
def createLevels (owner : Int) : List Path → Option Int → Tx StoreError Db PUnit
  | [], _ => pure ⟨⟩
  | level :: levels, parent => do
    let id ← Tx.call (createMailbox owner (String.ofList level) parent none 0 true now)
    createLevels owner levels (some id)

def create (path : Path) : Tx StoreError Db Reply :=
  let path := normalize path
  if path.isEmpty || (levelsOf path).any blank then pure .bad
  else do
    let named := sessionNamed (← get) me
    if (find named path).isSome then pure .no
    else
      let levels := levelsOf path
      let found := deepest named levels (levels.length - 1)
      match placeOf me found with
      | none => pure .no
      | some (owner, parent) => do
        createLevels now owner (levels.drop ((found.map (·.1)).getD 0)) parent
        pure .ok

/-- The parent `rename` gives the mailbox, or the answer that ends it.  A mailbox stays with its
owner: someone else's moves only within what they shared. -/
def renameParent (named : List Named) (owner : Int) :
    Option Path → Tx StoreError Db (Except Reply (Option Int))
  | none => pure (if owner = me then .ok none else .error .no)
  | some superior =>
    match find named superior with
    | some parent =>
      if !parent.placeholder && parent.owner == owner && (owner == me || parent.may "k") then
        pure (.ok (some parent.mailbox.id))
      else if parent.placeholder && owner != me && parent.owner == owner && parent.path.count separator == 1 then
        pure (.ok none)
      else pure (.error .no)
    | none =>
      if owner = me then do
        let _ ← create now me superior
        let named := sessionNamed (← get) me
        match (find named superior).filter fun parent => parent.owner == me with
        | some parent => pure (.ok (some parent.mailbox.id))
        | none => pure (.error .no)
      else pure (.error .no)

/-- The superior path and the last level of a path. -/
def splitLast (path : Path) : Option Path × Path :=
  match rsplitOnce path with
  | some (superior, name) => (some superior, name)
  | none => (none, path)

def rename (source target : Path) : Tx StoreError Db Reply := do
  let named := sessionNamed (← get) me
  match (find named source).filter fun found => !found.placeholder with
  | none => pure .no
  | some found =>
    if isInbox found then pure .no
    else if !found.may "x" then pure .no
    else
      let target := normalize target
      if (find named target).isSome then pure .no
      else
        let (superior, name) := splitLast target
        if blank name then pure .bad
        else do
          match ← renameParent now me named found.owner superior with
          | .error reply => pure reply
          | .ok parent => do
            Tx.call (updateMailbox found.owner found.mailbox.id
              { name := some (String.ofList name), parentId := some parent })
            pure .ok

/-- An error of the store is answered with NO. -/
def answered (command : Tx StoreError Db Reply) (db : Db) : Reply × Db :=
  match command.exec db with
  | (.ok reply, db') => (reply, db')
  | (.error _, db') => (.no, db')

end Commands

/-! ## 2. The tree by paths -/

/-- The path of a mailbox, as its owner sees it. -/
def pathAt (db : Db) (a x : Int) : Option Path :=
  (byId (imapMailboxes db a) x).map (pathOf (imapMailboxes db a))

section Paths

variable {db db' : Db} {a x s : Int}

theorem mem_imapMailboxes {mailbox : ImapMailbox} :
    mailbox ∈ imapMailboxes db a ↔ ∃ r ∈ db.mailboxes, r.accountId = a ∧ mailboxRow r = mailbox := by
  simp only [imapMailboxes, List.mem_map, (List.perm_insertionSort _ _).mem_iff, List.mem_filter, beq_iff_eq,
    and_assoc]

theorem byId_eq_some (hk : Keyed db) {mailbox : ImapMailbox} :
    byId (imapMailboxes db a) x = some mailbox ↔
      ∃ r ∈ db.mailboxes, r.id = x ∧ r.accountId = a ∧ mailboxRow r = mailbox := by
  constructor
  · intro h
    obtain ⟨r, hr, hacc, hrow⟩ := mem_imapMailboxes.1 (List.mem_of_find?_eq_some h)
    have hid : mailbox.id = x := by simpa using List.find?_some h
    exact ⟨r, hr, by rw [← hid, ← hrow]; rfl, hacc, hrow⟩
  · rintro ⟨r, hr, rfl, rfl, rfl⟩
    have hmem : mailboxRow r ∈ imapMailboxes db r.accountId := mem_imapMailboxes.2 ⟨r, hr, rfl, rfl⟩
    unfold byId
    cases hfind : (imapMailboxes db r.accountId).find? fun m => m.id == r.id with
    | none => exact absurd (List.find?_eq_none.1 hfind _ hmem) (by simp [mailboxRow])
    | some found =>
      obtain ⟨r', hr', -, rfl⟩ := mem_imapMailboxes.1 (List.mem_of_find?_eq_some hfind)
      have hid : r'.id = r.id := by simpa [mailboxRow] using List.find?_some hfind
      rw [hk.mailbox.eq hr' hr hid]

/-- The two ways to look at a mailbox's parent agree in its account. -/
theorem upOf_eq (hk : Keyed db) (hx : db.Has a x) : upOf (byId (imapMailboxes db a)) x = db.up x := by
  obtain ⟨r, hr, rfl, hacc⟩ := hx
  rw [upOf, (byId_eq_some hk).2 ⟨r, hr, rfl, hacc, rfl⟩, hk.up_eq hr]
  rfl

theorem has_of_up (hi : Intact db) (hx : db.Has a x) {p : Int} (hp : db.up x = some p) : db.Has a p := by
  obtain ⟨r, hr, rfl, rfl⟩ := hx
  rw [hi.keyed.up_eq hr] at hp
  exact hi.linked.parent r hr p hp

theorem depth_upOf (hi : Intact db) {q : Option Int} {d : Nat} (h : Depth db.up q d)
    (hq : ∀ x, q = some x → db.Has a x) : Depth (upOf (byId (imapMailboxes db a))) q d := by
  induction h with
  | root => exact .root
  | @node x d _ _ ih =>
    have hx := hq x rfl
    refine .node trivial ?_
    rw [upOf_eq hi.keyed hx]
    exact ih fun p hp => has_of_up hi hx hp

theorem below_upOf (hi : Intact db) {k : Nat} (h : Below db.up s x k) (hx : db.Has a x) :
    Below (upOf (byId (imapMailboxes db a))) s x k ∧ db.Has a s := by
  induction h with
  | refl => exact ⟨.refl, hx⟩
  | @step y z k hy _ ih =>
    obtain ⟨hbelow, hs⟩ := ih (has_of_up hi hx hy)
    exact ⟨.step ((upOf_eq hi.keyed hx).trans hy) hbelow, hs⟩

/-- A mailbox keeps its path if nothing on its way up changed. -/
theorem pathAt_congr {S : Int → Prop}
    (hsame : ∀ x, S x → byId (imapMailboxes db' a) x = byId (imapMailboxes db a) x)
    (hup : ∀ x m p, S x → byId (imapMailboxes db a) x = some m → m.parentId = some p → S p) (hx : S x) :
    pathAt db' a x = pathAt db a x := by
  have hnames := namesUp_congr hsame hup maxLevels x hx
  unfold pathAt
  rw [hsame x hx] at hnames ⊢
  cases hm : byId (imapMailboxes db a) x with
  | none => rfl
  | some m =>
    rw [hm] at hnames
    simp only [Option.map_some, pathOf, hnames]

end Paths

/-! ## 3. Levels made one inside the other -/

/-- Mailboxes of an account, one inside the other, named after levels of a path. -/
inductive Nested (owner : Int) : Option Int → List Path → List MailboxRow → Prop
  | nil (parent : Option Int) : Nested owner parent [] []
  | cons {parent : Option Int} {level : Path} {levels : List Path} {row : MailboxRow}
    {rows : List MailboxRow} :
      row.accountId = owner → row.parentId = parent → row.name = trim (String.ofList level) →
        Nested owner (some row.id) levels rows → Nested owner parent (level :: levels) (row :: rows)

/-- Nothing happened to the tree but that levels were made. -/
structure Grown (db db' : Db) (owner : Int) (parent : Option Int) (levels : List Path) : Prop where
  intact : Intact db'
  rows : ∃ rows, Nested owner parent levels rows ∧ db'.mailboxes = db.mailboxes ++ rows

section Levels

variable {db db' : Db} {now owner a x : Int} {parent : Option Int} {levels : List Path}

theorem Grown.refl (hi : Intact db) : Grown db db owner parent [] :=
  ⟨hi, [], .nil parent, (List.append_nil _).symm⟩

theorem validMailboxName_ok {name valid : String} (h : validMailboxName name = .ok valid) :
    valid = trim name := by
  unfold validMailboxName at h
  dsimp only at h
  split at h
  · cases h
  · cases h
    rfl

/-- `create_mailbox` refuses, or makes one more level. -/
theorem createMailbox_grows (hi : Intact db) (level : Path) (parent : Option Int) :
    (∃ e, createMailbox owner (String.ofList level) parent none 0 true now db = (.error e, db)) ∨
      ∃ db' row, createMailbox owner (String.ofList level) parent none 0 true now db = (.ok row.id, db') ∧
        Intact db' ∧ row.accountId = owner ∧ row.parentId = parent ∧ row.name = trim (String.ofList level) ∧
        db'.mailboxes = db.mailboxes ++ [row] := by
  have hout := (StoreOp.createMailbox owner (String.ofList level) parent none 0 true now).outcome hi plainExternals
  rcases createMailbox_cases hi.keyed (String.ofList level) parent none 0 true now (a := owner) with
    ⟨e, h⟩ | ⟨db', m, row, h, hname, hrow, heff⟩
  · exact .inl ⟨e, h⟩
  · have hrun : (StoreOp.createMailbox owner (String.ofList level) parent none 0 true now).run plainExternals db =
        db' := by
      change (createMailbox owner (String.ofList level) parent none 0 true now db).2 = db'
      rw [h]
    rw [hrun] at hout
    refine .inr ⟨db', row, h, hout.intact hi, by rw [hrow]; rfl, by rw [hrow]; rfl, validMailboxName_ok hname, ?_⟩
    obtain ⟨rfl, -, hfit⟩ := heff.single_inv
    obtain ⟨hs, -⟩ := hi.start heff.modseq none
    rw [Event.apply, Db.applyCreate_eq hfit.id hfit.updated (hfit.new hs.linked)]
    rfl

theorem createLevels_cons (level : Path) (levels : List Path) (parent : Option Int) :
    createLevels now owner (level :: levels) parent = (do
      let id ← Tx.call (createMailbox owner (String.ofList level) parent none 0 true now)
      createLevels now owner levels (some id)) := rfl

/-- **The loop of CREATE** makes all levels, or it is refused at one of them and leaves those before
it. -/
theorem createLevels_ends (levels : List Path) {db : Db} {parent : Option Int} (hi : Intact db) :
    Tx.Ends (createLevels now owner levels parent) db (fun _ db' => Grown db db' owner parent levels)
      fun db' => ∃ made left, levels = made ++ left ∧ left ≠ [] ∧ Grown db db' owner parent made := by
  induction levels generalizing db parent with
  | nil => exact Tx.Ends.pure (.refl hi)
  | cons level levels ih =>
    have hgrows := @createMailbox_grows _ now owner hi level parent
    rw [createLevels_cons]
    -- what `create_mailbox` does is all in `hgrows`
    generalize createMailbox owner (String.ofList level) parent none 0 true now = step at hgrows ⊢
    rcases hgrows with ⟨e, h⟩ | ⟨db₁, row, h, hi₁, hacc, hpar, hname, htab⟩
    · refine Tx.Ends.bind (Q := fun _ _ => False) ?_ fun _ _ h => h.elim
      unfold Tx.Ends
      rw [Tx.exec_call, h]
      exact ⟨[], level :: levels, rfl, by simp, .refl hi⟩
    · have hgrow : ∀ {db' : Db} {made : List Path}, Grown db₁ db' owner (some row.id) made →
          Grown db db' owner parent (level :: made) := by
        rintro db' made ⟨hi', rows, hnested, htab'⟩
        refine ⟨hi', row :: rows, .cons hacc hpar hname hnested, ?_⟩
        rw [htab', htab, List.append_assoc]
        rfl
      refine Tx.Ends.bind (Q := fun id db' => id = row.id ∧ db' = db₁) ?_ ?_
      · unfold Tx.Ends
        rw [Tx.exec_call, h]
        exact ⟨rfl, rfl⟩
      · rintro id db' ⟨rfl, rfl⟩
        refine (ih hi₁).mono (fun _ db' h => hgrow h) fun db' h => ?_
        obtain ⟨made, left, rfl, hleft, h⟩ := h
        exact ⟨level :: made, left, rfl, hleft, hgrow h⟩

/-- New levels are nobody's way up. -/
theorem Grown.pathAt_eq (h : Grown db db' owner parent levels) (hi : Intact db) (hx : db.Has a x) :
    pathAt db' a x = pathAt db a x := by
  obtain ⟨hi', rows, -, htab⟩ := h
  refine pathAt_congr (S := db.Has a) ?_ ?_ hx
  · rintro x ⟨r, hr, hid, hacc⟩
    rw [(byId_eq_some hi.keyed).2 ⟨r, hr, hid, hacc, rfl⟩]
    refine (byId_eq_some hi'.keyed).2 ⟨r, ?_, hid, hacc, rfl⟩
    rw [htab]
    exact List.mem_append_left _ hr
  · rintro x m p - hm hp
    obtain ⟨r, hr, -, hacc, rfl⟩ := (byId_eq_some hi.keyed).1 hm
    exact hacc ▸ hi.linked.parent r hr p hp

end Levels

/-! ## 4. One mailbox moved -/

/-- One mailbox got another name and another parent, and nothing else happened to the tree. -/
structure Moved (db db' : Db) (owner s : Int) (name : String) (parent : Option Int) : Prop where
  intact : Intact db'
  kept : ∀ r : MailboxRow, r.id ≠ s → (r ∈ db'.mailboxes ↔ r ∈ db.mailboxes)
  there : ∃ r ∈ db.mailboxes, r.id = s ∧ r.accountId = owner ∧
    ∃ r' ∈ db'.mailboxes, r'.id = s ∧ r'.accountId = owner ∧ r'.name = name ∧ r'.parentId = parent ∧
      r'.role = r.role
  /-- The new parent is not inside the mailbox, and not too deep. -/
  chain : ∃ n ≤ maxDepth, Chain db.up (· ≠ s) parent n
  owned : ∀ p, parent = some p → db.Has owner p

section Moved

variable {db db' : Db} {owner s a x : Int} {name : String} {parent : Option Int}

theorem mem_mailboxes_alter {m : Int} {u : MailboxUpdate} {r' : MailboxRow} :
    r' ∈ ((db.updateMailboxes (fun r => r.id == s) u.apply).mailboxUpdated a m s).mailboxes ↔
      ∃ r ∈ db.mailboxes, (if r.id = s then { u.apply r with updatedModseq := m } else r) = r' := by
  have hrow : ∀ r : MailboxRow, setRow m [s] (if r.id == s then u.apply r else r) =
      if r.id = s then { u.apply r with updatedModseq := m } else r := by
    intro r
    by_cases h : r.id = s <;> simp [setRow, h]
  rw [Db.mailboxUpdated_eq, Db.updateMailboxes, Table.updateWhere, List.map_map, List.mem_map]
  simp only [Function.comp_apply, hrow]

/-- `update_mailbox` refuses, or moves one mailbox. -/
theorem updateMailbox_moves (hi : Intact db) (s : Int) (name : String) (parent : Option Int) :
    (∃ e, updateMailbox owner s { name := some name, parentId := some parent } db = (.error e, db)) ∨
      ∃ db', updateMailbox owner s { name := some name, parentId := some parent } db = (.ok ⟨⟩, db') ∧
        Moved db db' owner s (trim name) parent := by
  have hout := (StoreOp.updateMailbox owner s { name := some name, parentId := some parent }).outcome hi plainExternals
  rcases updateMailbox_cases hi.keyed hi.named s { name := some name, parentId := some parent }
    (a := owner) with
    ⟨e, h⟩ | ⟨db', m, valid, h, hname, heff⟩
  · exact .inl ⟨e, h⟩
  · have hrun : (StoreOp.updateMailbox owner s { name := some name, parentId := some parent }).run plainExternals db =
        db' := by
      change (updateMailbox owner s { name := some name, parentId := some parent } db).2 = db'
      rw [h]
    rw [hrun] at hout
    have hvalid : valid = some (trim name) := by
      obtain ⟨v, hv, hvalid⟩ := Tx.except_bind_ok (hname : (some <$> validMailboxName name) = .ok valid)
      cases hvalid
      rw [validMailboxName_ok hv]
    have hi' := hout.intact hi
    obtain ⟨rfl, -, hfit⟩ := heff.single_inv
    obtain ⟨n, hn, hchain⟩ := chain_of_checkParentLoop hi.keyed.bump (hfit.parent parent rfl)
    refine .inr ⟨_, h, hi', ?_, ?_, ?_, ?_⟩
    · intro r hr
      refine mem_mailboxes_alter.trans ⟨?_, fun h => ⟨r, h, if_neg hr⟩⟩
      rintro ⟨r₀, hr₀, rfl⟩
      split at hr
      · rename_i hid
        exact absurd hid hr
      · rename_i hid
        rwa [if_neg hid]
    · obtain ⟨r, hr, hid, hacc⟩ := hfit.has
      refine ⟨r, hr, hid, hacc, _, mem_mailboxes_alter.2 ⟨r, hr, rfl⟩, ?_⟩
      rw [if_pos hid, hvalid]
      exact ⟨hid, hacc, rfl, rfl, rfl⟩
    · exact ⟨n, hn, hchain.mono fun x hx e => hx (congrArg some e)⟩
    · rintro p rfl
      exact has_of_checkParent
        ((checkParent_bumpModseq db owner owner (some s) (some p)).symm.trans (hfit.parent (some p) rfl))

theorem Moved.byId_eq (h : Moved db db' owner s name parent) (hi : Intact db) (hx : x ≠ s) :
    byId (imapMailboxes db' a) x = byId (imapMailboxes db a) x := by
  refine Option.ext fun mailbox => ?_
  rw [byId_eq_some h.intact.keyed, byId_eq_some hi.keyed]
  constructor
  · rintro ⟨r, hr, hid, hrest⟩
    exact ⟨r, (h.kept r (hid.trans_ne hx)).1 hr, hid, hrest⟩
  · rintro ⟨r, hr, hid, hrest⟩
    exact ⟨r, (h.kept r (hid.trans_ne hx)).2 hr, hid, hrest⟩

theorem Moved.up_eq (h : Moved db db' owner s name parent) (hi : Intact db) (hx : x ≠ s) :
    db'.up x = db.up x := by
  have hfind : db'.mailbox x = db.mailbox x :=
    h.intact.keyed.mailbox.find?_congr hi.keyed.mailbox fun r hr => h.kept r (hr.trans_ne hx)
  rw [Db.up, Db.up, hfind]

theorem Moved.has (h : Moved db db' owner s name parent) (hi : Intact db) (hx : db.Has a x) :
    db'.Has a x := by
  obtain ⟨r, hr, rfl, hacc⟩ := hx
  by_cases hne : r.id = s
  · obtain ⟨r₀, hr₀, hid, hacc₀, r', hr', hid', hacc', -⟩ := h.there
    obtain rfl := hi.keyed.mailbox.eq hr hr₀ (hne.trans hid.symm)
    exact ⟨r', hr', hid'.trans hne.symm, hacc'.trans (hacc₀.symm.trans hacc)⟩
  · exact ⟨r, (h.kept r hne).2 hr, rfl, hacc⟩

/-- **Everything outside the mailbox** keeps its path. -/
theorem Moved.outside (h : Moved db db' owner s name parent) (hi : Intact db) (hx : db.Has a x)
    (hout : ∀ k, ¬ Below db.up s x k) : pathAt db' a x = pathAt db a x := by
  refine pathAt_congr (S := fun x => db.Has a x ∧ ∀ k, ¬ Below db.up s x k) ?_ ?_ ⟨hx, hout⟩
  · rintro x ⟨-, hout⟩
    refine h.byId_eq hi ?_
    rintro rfl
    exact hout 0 .refl
  · rintro x m p ⟨hx, hout⟩ hm hp
    have hup : db.up x = some p := by
      rw [← upOf_eq hi.keyed hx, upOf, hm]
      exact hp
    exact ⟨has_of_up hi hx hup, fun k hbelow => hout (k + 1) (.step hup hbelow)⟩

theorem has_of_below (hi : Intact db) (hs : db.Has a s) {k : Nat} (h : Below db.up s x k) : db.Has a x := by
  induction h with
  | refl => exact hs
  | @step y z k hy _ ih =>
    obtain ⟨r, hr, hpar⟩ := Option.bind_eq_some_iff.1 hy
    have hmem := List.mem_of_find?_eq_some hr
    have hid : r.id = y := by simpa using List.find?_some hr
    obtain ⟨p, hp, hpid, hpacc⟩ := hi.linked.parent r hmem z hpar
    obtain ⟨q, hq, hqid, hqacc⟩ := ih
    obtain rfl := hi.keyed.mailbox.eq hp hq (hpid.trans hqid.symm)
    exact ⟨r, hmem, hid, hpacc.symm.trans hqacc⟩

theorem not_below_of_chain {up : Int → Option Int} {p : Int} {n k : Nat}
    (h : Chain up (· ≠ s) (some p) n) : ¬ Below up s p k := by
  intro hbelow
  induction hbelow generalizing n with
  | refl =>
    cases h with
    | node hne _ => exact hne rfl
  | step hy _ ih =>
    cases h with
    | node _ h =>
      rw [hy] at h
      exact ih h

/-- The path of a mailbox by its parent and its name. -/
def newPath (db : Db) (owner : Int) (role : Option MailboxRole) (name : Path) : Option Int → Option Path
  | none => some (if role = some .inbox then inbox else name)
  | some p => (pathAt db owner p).map (· ++ separator :: name)

/-- **The mailbox itself** is found under its new parent, by its new name. -/
theorem Moved.at_new (h : Moved db db' owner s name parent) (hi : Intact db) :
    ∃ r ∈ db.mailboxes, r.id = s ∧ pathAt db' owner s = newPath db' owner r.role name.toList parent := by
  obtain ⟨r, hr, hid, hacc, r', hr', hid', hacc', hname, hpar, hrole⟩ := h.there
  have hi' := h.intact
  refine ⟨r, hr, hid, ?_⟩
  have hlook : byId (imapMailboxes db' owner) s = some (mailboxRow r') :=
    (byId_eq_some hi'.keyed).2 ⟨r', hr', hid', hacc', rfl⟩
  rw [pathAt, hlook, Option.map_some]
  cases parent with
  | none =>
    have htop := @pathOf_top (imapMailboxes db' owner) (mailboxRow r') hpar
    rw [htop]
    change some (if r'.role = some .inbox then inbox else r'.name.toList) = _
    rw [hrole, hname]
    rfl
  | some p =>
    obtain ⟨n, hn, hchain⟩ := h.chain
    have howned := h.owned p rfl
    have hdepth : Depth db'.up (some p) n :=
      (hchain.congr fun x hx => h.up_eq hi hx).mono fun _ _ => trivial
    have hdepth' := depth_upOf hi' hdepth fun x hx => (Option.some.inj hx) ▸ h.has hi howned
    obtain ⟨q, hq, hqid, hqacc⟩ := h.has hi howned
    have hparent : byId (imapMailboxes db' owner) p = some (mailboxRow q) :=
      (byId_eq_some hi'.keyed).2 ⟨q, hq, hqid, hqacc, rfl⟩
    have hinside := @pathOf_inside (imapMailboxes db' owner) (mailboxRow q)
      (mailboxRow r') p hpar hparent n hdepth'
      (Nat.lt_succ_of_le hn)
    rw [hinside, newPath, pathAt, hparent, Option.map_some, Option.map_some, ← hname]
    rfl

/-- **Everything inside the mailbox** goes along, unless it lies deeper than a path says. -/
theorem Moved.inside (h : Moved db db' owner s name parent) (hi : Intact db) {k d d' n : Nat}
    (hs : Depth db.up (some s) n) (hbelow : Below db.up s x k)
    (hd : Depth db.up (some x) d) (hle : d ≤ maxLevels) (hd' : Depth db'.up (some x) d')
      (hle' : d' ≤ maxLevels) :
    ∃ old new rest, pathAt db owner s = some old ∧ pathAt db' owner s = some new ∧
      pathAt db owner x = some (old ++ rest) ∧ pathAt db' owner x = some (new ++ rest) := by
  have hi' := h.intact
  obtain ⟨r, hr, hid, hacc, r', hr', hid', hacc', -⟩ := h.there
  have hhas : db.Has owner s := ⟨r, hr, hid, hacc⟩
  have hx := has_of_below hi hhas hbelow
  obtain ⟨q, hq, hqid, hqacc⟩ := has_of_below hi hhas hbelow
  obtain ⟨q', hq', hqid', hqacc'⟩ := h.has hi hx
  have hown : byId (imapMailboxes db owner) s = some (mailboxRow r) :=
    (byId_eq_some hi.keyed).2 ⟨r, hr, hid, hacc, rfl⟩
  have hown' : byId (imapMailboxes db' owner) s = some (mailboxRow r') :=
    (byId_eq_some hi'.keyed).2 ⟨r', hr', hid', hacc', rfl⟩
  have hmailbox : byId (imapMailboxes db owner) x = some (mailboxRow q) :=
    (byId_eq_some hi.keyed).2 ⟨q, hq, hqid, hqacc, rfl⟩
  have hmailbox' : byId (imapMailboxes db' owner) x = some (mailboxRow q') :=
    (byId_eq_some hi'.keyed).2 ⟨q', hq', hqid', hqacc', rfl⟩
  obtain ⟨rest, hold, hnew⟩ := pathOf_below (fun x hx => h.byId_eq hi hx)
    (depth_upOf hi hs fun y hy => (Option.some.inj hy) ▸ hhas) (below_upOf hi hbelow hx).1
    (depth_upOf hi hd fun y hy => (Option.some.inj hy) ▸ hx) hle
    (depth_upOf hi' hd' fun y hy => (Option.some.inj hy) ▸ h.has hi hx) hle' hown hown' hmailbox hmailbox'
  refine ⟨pathOf (imapMailboxes db owner) (mailboxRow r),
    pathOf (imapMailboxes db' owner) (mailboxRow r'), rest,
    ?_, ?_, ?_, ?_⟩
  · rw [pathAt, hown, Option.map_some]
  · rw [pathAt, hown', Option.map_some]
  · rw [pathAt, hmailbox, Option.map_some, hold]
  · rw [pathAt, hmailbox', Option.map_some, hnew]

/-- The new parent is not inside the mailbox. -/
theorem Moved.parent_outside {p : Int} (h : Moved db db' owner s name (some p)) (hi : Intact db) :
    pathAt db' owner p = pathAt db owner p := by
  obtain ⟨n, -, hchain⟩ := h.chain
  exact h.outside hi (h.owned p rfl) fun k => not_below_of_chain hchain

end Moved

/-! ## 5. The commands -/

/-- Nothing happened to the tree but that some of the levels, which were missing, were made. -/
def Added (db db' : Db) (me : Int) (levels : List Path) : Prop :=
  ∃ owner parent before made left, levels = before ++ made ++ left ∧
    (∀ depth, before.length < depth → depth ≤ (before ++ made).length →
      find (sessionNamed db me) (joined (levels.take depth)) = none) ∧
    Grown db db' owner parent made

/-- The levels RENAME makes where they are missing. -/
def levelsAbove : Option Path → List Path
  | none => []
  | some superior => levelsOf (normalize superior)

/-- What a superior path leads to: the parent of what is renamed to a path below it. -/
inductive Leads (db : Db) (me owner : Int) : Option Path → Option Int → Prop
  | top : owner = me → Leads db me owner none none
  | root {superior login : Path} : owner ≠ me → normalize superior = sharedPrefix ++ separator :: login →
      separator ∉ login → Leads db me owner (some superior) none
  | inside {superior above inner : Path} {p : Int} : Above me owner above → pathAt db owner p = some inner →
      normalize superior = above ++ inner → Leads db me owner (some superior) (some p)

section Commands

variable {db db' : Db} {now me owner : Int} {path superior : Path} {levels : List Path}

theorem Added.refl (hi : Intact db) : Added db db me levels :=
  ⟨me, none, [], [], levels, rfl, fun depth h h' => (by simp at h h'; omega), .refl hi⟩

theorem Added.intact (h : Added db db' me levels) : Intact db' := by
  obtain ⟨_, _, _, _, _, -, -, h⟩ := h
  exact h.intact

/-- What was there keeps its path. -/
theorem Added.pathAt_eq (h : Added db db' me levels) (hi : Intact db) {a x : Int} (hx : db.Has a x) :
    pathAt db' a x = pathAt db a x := by
  obtain ⟨_, _, _, _, _, -, -, h⟩ := h
  exact h.pathAt_eq hi hx

theorem Added.weaken (h : Added db db' me levels.dropLast) : Added db db' me levels := by
  obtain ⟨owner, parent, before, made, left, hsplit, hmissing, hgrown⟩ := h
  rcases List.eq_nil_or_concat levels with rfl | ⟨init, last, rfl⟩
  · exact ⟨owner, parent, before, made, left, hsplit, hmissing, hgrown⟩
  · rw [List.concat_eq_append] at hsplit hmissing ⊢
    rw [List.dropLast_concat] at hsplit hmissing
    refine ⟨owner, parent, before, made, left ++ [last], by rw [hsplit]; simp, fun depth hlt hd => ?_, hgrown⟩
    have hle : depth ≤ init.length := by
      rw [hsplit]
      simp only [List.length_append] at hd ⊢
      omega
    rw [List.take_append_of_le_length hle]
    exact hmissing depth hlt hd

theorem joined_levelsOf (path : Path) : joined (levelsOf path) = path := List.intercalate_splitOn separator

/-- Below the deepest level that exists none exists. -/
theorem deepest_none {named : List Named} {depth d : Nat}
    (h : (((deepest named levels depth).map (·.1)).getD 0) < d) (hd : d ≤ depth) :
    find named (joined (levels.take d)) = none := by
  induction depth with
  | zero => omega
  | succ depth ih =>
    unfold deepest at h
    cases hfind : find named (joined (levels.take (depth + 1))) with
    | some found =>
      rw [hfind] at h
      simp only [Option.map_some, Option.getD_some] at h
      omega
    | none =>
      rw [hfind] at h
      rcases Nat.lt_or_ge depth d with hlt | hge
      · obtain rfl : d = depth + 1 := by omega
        exact hfind
      · exact ih h hge

theorem deepest_le {named : List Named} (depth : Nat) :
    ((deepest named levels depth).map (·.1)).getD 0 ≤ depth := by
  induction depth with
  | zero => simp [deepest]
  | succ depth ih =>
    unfold deepest
    cases find named (joined (levels.take (depth + 1))) with
    | some found => simp
    | none => exact Nat.le_succ_of_le ih

/-- **CREATE** makes the missing levels, or it leaves some of the superior ones. -/
theorem create_ends (hi : Intact db) :
    Tx.Ends (create now me path) db
      (fun reply db' => reply = .ok ∧ Added db db' me (levelsOf (normalize path)) ∨ reply ≠ .ok ∧ db' = db)
      fun db' => Added db db' me (levelsOf (normalize path)).dropLast := by
  unfold create
  dsimp only
  split
  · exact .pure (.inr ⟨by decide, rfl⟩)
  · refine Tx.Ends.get_bind ?_
    split
    · exact .pure (.inr ⟨by decide, rfl⟩)
    · rename_i hfind
      have hnone : find (sessionNamed db me) (normalize path) = none := by simpa using hfind
      generalize hlevels : levelsOf (normalize path) = levels
      have hjoined : joined levels = normalize path := hlevels ▸ joined_levelsOf _
      have hpos : 0 < levels.length := by
        rw [← hlevels]
        exact List.length_pos_of_ne_nil (List.splitOn_ne_nil separator (normalize path))
      cases hplace : placeOf me (deepest (sessionNamed db me) levels (levels.length - 1)) with
      | none => exact .pure (.inr ⟨by decide, rfl⟩)
      | some place =>
        obtain ⟨owner, parent⟩ := place
        dsimp only
        generalize hstart : ((deepest (sessionNamed db me) levels (levels.length - 1)).map
          (·.1)).getD 0 = start
        have hle : start ≤ levels.length - 1 := hstart ▸ deepest_le _
        have hmissing : ∀ d, start < d → d ≤ levels.length → find (sessionNamed db me)
          (joined (levels.take d)) = none := by
          intro d hlt hd
          rcases Nat.lt_or_ge (levels.length - 1) d with hlast | hlast
          · rw [List.take_of_length_le (by omega), hjoined]
            exact hnone
          · exact deepest_none (hstart ▸ hlt) hlast
        have hlength : (levels.take start).length = start := by
          rw [List.length_take]
          omega
        refine ((createLevels_ends (levels.drop start) hi).bind
          (R := fun reply db' => reply = .ok ∧ Added db db' me levels ∨ reply ≠ .ok ∧ db' = db)
          fun _ db' h => .pure (.inl ⟨rfl, ?_⟩)).mono (fun _ _ h => h) fun db' h => ?_
        · refine ⟨owner, parent, levels.take start, levels.drop start, [], by simp, fun d hlt hd => ?_, h⟩
          rw [hlength] at hlt
          rw [List.take_append_drop] at hd
          exact hmissing d hlt hd
        · obtain ⟨made, left, hdrop, hleft, h⟩ := h
          have hsplit : levels = levels.take start ++ made ++ left := by
            rw [List.append_assoc, ← hdrop, List.take_append_drop]
          have hlast : levels.dropLast = levels.take start ++ made ++ left.dropLast := by
            conv_lhs => rw [hsplit]
            rw [List.dropLast_append_of_ne_nil hleft]
          refine ⟨owner, parent, levels.take start, made, left.dropLast, hlast, fun d hlt hd => ?_, h⟩
          have hlen : d < levels.length := by
            have := congrArg List.length hsplit
            have := List.length_pos_of_ne_nil hleft
            simp only [List.length_append] at *
            omega
          rw [List.dropLast_eq_take, List.take_take, Nat.min_eq_left (by omega)]
          rw [hlength] at hlt
          exact hmissing d hlt (by omega)

/-- What a session is shown, by paths. -/
theorem shows_pathAt {n : Named} (hk : Keyed db) (h : Shows db me n) :
    ∃ above inner, Above me n.owner above ∧ pathAt db n.owner n.mailbox.id = some inner ∧
        n.path = above ++ inner := by
  obtain ⟨-, mailbox, hmem, hid, above, habove, hpath⟩ := h
  obtain ⟨r, hr, hacc, rfl⟩ := mem_imapMailboxes.1 hmem
  have hlook := (byId_eq_some hk).2 ⟨r, hr, hid, hacc, rfl⟩
  exact ⟨above, _, habove, by rw [pathAt, hlook]; rfl, hpath⟩

/-- What a superior path that was found leads to. -/
theorem leads_of_find {n : Named} (hk : Keyed db) (h : find (sessionNamed db me) superior = some n) :
    Leads db me n.owner (some superior) (some n.mailbox.id) ∨ n.placeholder = true ∧ n.mailbox.id = 0 := by
  obtain ⟨hpath, hlevel | hshows⟩ := find_spec h
  · exact .inr ⟨hlevel.placeholder, hlevel.id⟩
  · obtain ⟨above, inner, habove, hinner, heq⟩ := shows_pathAt hk hshows
    exact .inl (.inside habove hinner (hpath ▸ heq))

/-- What `rename` has when it knows the parent, or answers at once. -/
def Settles (db db' : Db) (me owner : Int) (superior : Option Path) : Except Reply (Option Int) → Prop
  | .ok parent => Added db db' me (levelsAbove superior) ∧
    (Leads db' me owner superior parent ∨ parent = some 0)
  | .error reply => Added db db' me (levelsAbove superior) ∧ reply ≠ .ok

theorem renameParent_ends {named : List Named} {owner : Int} (hi : Intact db)
    (hnamed : named = sessionNamed db me)
    (superior : Option Path) :
    Tx.Ends (renameParent now me named owner superior) db (fun r db' => Settles db db' me owner superior r)
      fun db' => Added db db' me (levelsAbove superior) := by
  subst hnamed
  have hrefused : Settles db db me owner superior (.error .no) := ⟨.refl hi, by decide⟩
  cases superior with
  | none =>
    unfold renameParent
    refine .pure ?_
    split
    · rename_i howner
      exact ⟨.refl hi, .inl (.top howner)⟩
    · exact hrefused
  | some superior =>
    unfold renameParent
    cases hfind : find (sessionNamed db me) superior with
    | some found =>
      simp only [hfind]
      split
      · rename_i hmay
        simp only [Bool.and_eq_true, Bool.not_eq_true', beq_iff_eq] at hmay
        refine .pure ⟨.refl hi, ?_⟩
        rcases leads_of_find hi.keyed hfind with h | ⟨h, -⟩
        · exact .inl (hmay.1.2 ▸ h)
        · rw [hmay.1.1] at h
          cases h
      · split
        · rename_i hroot
          simp only [Bool.and_eq_true, bne_iff_ne, beq_iff_eq] at hroot
          refine .pure ⟨.refl hi, .inl ?_⟩
          obtain ⟨⟨⟨hplaceholder, hother⟩, -⟩, hcount⟩ := hroot
          obtain ⟨hpath, hlevel | hshows⟩ := find_spec hfind
          · rcases hlevel.path with hroot | ⟨login, hlogin⟩
            · rw [hroot] at hcount
              exact absurd hcount (by decide)
            · refine .root hother (hpath ▸ hlogin) (List.count_eq_zero.1 ?_)
              rw [hlogin, List.count_append, List.count_cons_self,
                show List.count separator sharedPrefix = 0 by decide] at hcount
              omega
          · rw [hshows.1] at hplaceholder
            cases hplaceholder
        · exact .pure hrefused
    | none =>
      simp only [hfind]
      split
      · rename_i howner
        have hcreate : Tx.Ends (create now me superior) db
            (fun _ db' => Added db db' me (levelsOf (normalize superior))) fun db' =>
              Added db db' me (levelsOf (normalize superior)) := by
          refine (create_ends hi).mono (fun reply db' h => ?_) fun db' h => h.weaken
          rcases h with ⟨-, h⟩ | ⟨-, rfl⟩
          · exact h
          · exact .refl hi
        refine hcreate.bind fun reply db₁ hadded => Tx.Ends.get_bind ?_
        have hk := hadded.intact.keyed
        cases hfind' : (find (sessionNamed db₁ me) superior).filter fun parent => parent.owner == me with
        | none => exact .pure ⟨hadded, by decide⟩
        | some parent =>
          obtain ⟨hparent, hme⟩ := Option.filter_eq_some_iff.1 hfind'
          refine .pure ⟨hadded, ?_⟩
          rcases leads_of_find hk hparent with h | ⟨-, h⟩
          · have hown : parent.owner = owner := (beq_iff_eq.1 hme).trans howner.symm
            exact .inl (hown ▸ h)
          · exact .inr (congrArg some h)
      · exact .pure hrefused

/-- What RENAME did: the superior levels that were missing, and one move. -/
def Renamed (db db' : Db) (me : Int) (source target : Path) : Prop :=
  ∃ n, find (sessionNamed db me) source = some n ∧ Shows db me n ∧ ∃ db₁ parent,
    Added db db₁ me (levelsAbove (splitLast (normalize target)).1) ∧
      Leads db₁ me n.owner (splitLast (normalize target)).1 parent ∧
      Moved db₁ db' n.owner n.mailbox.id (trim (String.ofList (splitLast (normalize target)).2)) parent

/-- **RENAME** moves the mailbox, or it leaves some of the superior levels. -/
theorem rename_ends {source target : Path} (hi : Intact db) :
    Tx.Ends (rename now me source target) db
      (fun reply db' => reply = .ok ∧ Renamed db db' me source target ∨
        reply ≠ .ok ∧ Added db db' me (levelsAbove (splitLast (normalize target)).1))
      fun db' => Added db db' me (levelsAbove (splitLast (normalize target)).1) := by
  have hno : ∀ {reply : Reply}, reply ≠ .ok → reply = .ok ∧ Renamed db db me source target ∨
      reply ≠ .ok ∧ Added db db me (levelsAbove (splitLast (normalize target)).1) :=
        fun h => .inr ⟨h, .refl hi⟩
  have hmoves := @updateMailbox_moves
  unfold rename
  -- what `update_mailbox` does is all in `hmoves`
  generalize updateMailbox = update at hmoves ⊢
  refine Tx.Ends.get_bind ?_
  dsimp only
  cases hfind : (find (sessionNamed db me) source).filter fun found => !found.placeholder with
  | none => exact .pure (hno (by decide : Reply.no ≠ .ok))
  | some found =>
    obtain ⟨hsource, hreal⟩ := Option.filter_eq_some_iff.1 hfind
    have hshows : Shows db me found := by
      rcases (find_spec hsource).2 with hlevel | hshows
      · rw [hlevel.placeholder] at hreal
        cases hreal
      · exact hshows
    rcases hsplit : splitLast (normalize target) with ⟨superior, name⟩
    rw [hsplit] at hno
    dsimp only at hno ⊢
    split
    · exact .pure (hno (by decide))
    · split
      · exact .pure (hno (by decide))
      · split
        · exact .pure (hno (by decide))
        · split
          · exact .pure (hno (by decide))
          · refine (renameParent_ends hi rfl superior).bind fun settled db₁ hsettled => ?_
            cases settled with
            | error reply => exact .pure (.inr ⟨hsettled.2, hsettled.1⟩)
            | ok parent =>
              obtain ⟨hadded, hleads⟩ := hsettled
              dsimp only
              rcases @hmoves db₁ found.owner hadded.intact found.mailbox.id (String.ofList name) parent with
                ⟨e, h⟩ | ⟨db', h, hmoved⟩
              · refine Tx.Ends.bind (Q := fun _ _ => False) ?_ fun _ _ h => h.elim
                unfold Tx.Ends
                rw [Tx.exec_call, h]
                exact hadded
              · refine Tx.Ends.bind (Q := fun _ s => s = db') ?_ ?_
                · unfold Tx.Ends
                  rw [Tx.exec_call, h]
                · rintro _ _ rfl
                  refine .pure (.inl ⟨rfl, found, hsource, hshows, db₁, parent, ?_⟩)
                  rw [hsplit]
                  refine ⟨hadded, ?_, hmoved⟩
                  rcases hleads with hleads | rfl
                  · exact hleads
                  · obtain ⟨r, hr, hid, -⟩ := hmoved.owned 0 rfl
                    have := (hadded.intact.linked.mailboxSeq r hr).1
                    omega

/-! ### From the tree before -/

theorem Added.rows (h : Added db db' me levels) : ∀ r ∈ db.mailboxes, r ∈ db'.mailboxes := by
  obtain ⟨_, _, _, _, _, -, -, -, rows, -, htab⟩ := h
  intro r hr
  rw [htab]
  exact List.mem_append_left _ hr

theorem Added.has (h : Added db db' me levels) {a x : Int} (hx : db.Has a x) : db'.Has a x := by
  obtain ⟨r, hr, hid⟩ := hx
  exact ⟨r, h.rows r hr, hid⟩

theorem Added.up_eq (h : Added db db' me levels) (hi : Intact db) {a x : Int} (hx : db.Has a x) :
    db'.up x = db.up x := by
  obtain ⟨r, hr, rfl, -⟩ := hx
  rw [hi.keyed.up_eq hr, h.intact.keyed.up_eq (h.rows r hr)]

theorem Added.depth (h : Added db db' me levels) (hi : Intact db) {a : Int} {q : Option Int} {d : Nat}
    (hd : Depth db.up q d) (hq : ∀ x, q = some x → db.Has a x) : Depth db'.up q d := by
  induction hd with
  | root => exact .root
  | @node x d _ _ ih =>
    have hx := hq x rfl
    refine .node trivial ?_
    rw [h.up_eq hi hx]
    exact ih fun p hp => has_of_up hi hx hp

theorem Added.below (h : Added db db' me levels) (hi : Intact db) {a x s : Int} {k : Nat} (hx : db.Has a x) :
    Below db'.up s x k ↔ Below db.up s x k := by
  constructor
  · intro hbelow
    induction hbelow with
    | refl => exact .refl
    | @step y z k hy _ ih =>
      rw [h.up_eq hi hx] at hy
      exact .step hy (ih (has_of_up hi hx hy))
  · intro hbelow
    induction hbelow with
    | refl => exact .refl
    | @step y z k hy _ ih => exact .step ((h.up_eq hi hx).trans hy) (ih (has_of_up hi hx hy))

/-- Whatever was there keeps its row and its path. -/
def Keeps (db db' : Db) : Prop :=
  (∀ r ∈ db.mailboxes, r ∈ db'.mailboxes) ∧ ∀ a x, db.Has a x → pathAt db' a x = pathAt db a x

theorem Added.keeps (h : Added db db' me levels) (hi : Intact db) : Keeps db db' :=
  ⟨h.rows, fun _ _ hx => h.pathAt_eq hi hx⟩

/-- Where a renamed mailbox, what is inside it and everything else are found. -/
structure Placed (db db' : Db) (me : Int) (n : Named) (superior : Option Path) (name : Path) : Prop where
  self : ∃ r ∈ db.mailboxes, r.id = n.mailbox.id ∧ ∃ parent, Leads db' me n.owner superior parent ∧
    (∃ r' ∈ db'.mailboxes, r'.id = r.id ∧ r'.accountId = n.owner ∧ r'.name = trim (String.ofList name) ∧
      r'.parentId = parent) ∧
    pathAt db' n.owner n.mailbox.id = newPath db' n.owner r.role (trim (String.ofList name)).toList parent
  inside : ∀ x k d d', Below db.up n.mailbox.id x k → Depth db.up (some x) d → d ≤ maxLevels →
    Depth db'.up (some x) d' → d' ≤ maxLevels → ∃ old new rest,
      pathAt db n.owner n.mailbox.id = some old ∧ pathAt db' n.owner n.mailbox.id = some new ∧
        pathAt db n.owner x = some (old ++ rest) ∧ pathAt db' n.owner x = some (new ++ rest)
  outside : ∀ a x, db.Has a x → (∀ k, ¬ Below db.up n.mailbox.id x k) → pathAt db' a x = pathAt db a x

theorem has_of_shows {n : Named} (h : Shows db me n) : db.Has n.owner n.mailbox.id := by
  obtain ⟨-, mailbox, hmem, hid, -⟩ := h
  obtain ⟨r, hr, hacc, rfl⟩ := mem_imapMailboxes.1 hmem
  exact ⟨r, hr, hid, hacc⟩

theorem Renamed.placed {source target : Path} (hi : Intact db) (hg : Grounded (fun _ => True) db)
    (h : Renamed db db' me source target) : ∃ n, find (sessionNamed db me) source = some n ∧
      Placed db db' me n (splitLast (normalize target)).1 (splitLast (normalize target)).2 := by
  obtain ⟨n, hn, hshows, db₁, parent, hadded, hleads, hmoved⟩ := h
  have hi₁ := hadded.intact
  have hhas := has_of_shows hshows
  refine ⟨n, hn, ?_, ?_, ?_⟩
  · obtain ⟨-, -, -, -, r', hr', hid', hacc', hname, hpar, -⟩ := hmoved.there
    obtain ⟨r₁, hr₁, hid₁, hnew⟩ := hmoved.at_new hi₁
    obtain ⟨r, hr, hid, -⟩ := hhas
    obtain rfl := hi₁.keyed.mailbox.eq (hadded.rows r hr) hr₁ (hid.trans hid₁.symm)
    refine ⟨r, hr, hid, parent, ?_, ⟨r', hr', hid'.trans hid.symm, hacc', hname, hpar⟩, hnew⟩
    generalize (splitLast (normalize target)).1 = superior at hleads ⊢
    cases hleads with
    | top howner => exact .top howner
    | root hother hroot hlogin => exact .root hother hroot hlogin
    | inside habove hinner heq =>
      rw [← hmoved.parent_outside hi₁] at hinner
      exact .inside habove hinner heq
  · intro x k d d' hbelow hd hle hd' hle'
    have hx := has_of_below hi hhas hbelow
    obtain ⟨r, hr, hid, -⟩ := hhas
    obtain ⟨n₀, -, hn₀⟩ := hg r hr
    have hs : Depth db.up (some n.mailbox.id) (n₀ + 1) := by
      refine .node trivial ?_
      rw [← hid, hi.keyed.up_eq hr]
      exact hn₀
    have hhas := has_of_shows hshows
    obtain ⟨old, new, rest, hold, hnew, hin, hin'⟩ := hmoved.inside hi₁
      (hadded.depth hi hs fun y hy => (Option.some.inj hy) ▸ hhas) ((hadded.below hi hx).2 hbelow)
      (hadded.depth hi hd fun y hy => (Option.some.inj hy) ▸ hx) hle hd' hle'
    rw [hadded.pathAt_eq hi hhas] at hold
    rw [hadded.pathAt_eq hi hx] at hin
    exact ⟨old, new, rest, hold, hnew, hin, hin'⟩
  · intro a x hx hout
    rw [hmoved.outside hi₁ (hadded.has hx) fun k hbelow => hout k ((hadded.below hi hx).1 hbelow)]
    exact hadded.pathAt_eq hi hx

/-- An answer is the one the command ends with, or NO for an error of the store. -/
theorem answered_cases {command : Tx StoreError Db Reply} {Q : Reply → Db → Prop} {E : Db → Prop}
    (h : Tx.Ends command db Q E) :
    Q (answered command db).1 (answered command db).2 ∨
      (answered command db).1 = .no ∧ E (answered command db).2 := by
  unfold Tx.Ends at h
  unfold answered
  rcases hexec : command.exec db with ⟨r, db'⟩
  rw [hexec] at h
  cases r with
  | ok reply => exact .inl h
  | error e => exact .inr ⟨rfl, h⟩

/-- **What CREATE and RENAME leave behind.**  A command that is not answered with OK keeps every
mailbox, its row and its path, and adds nothing but superior levels of the path that were missing,
one inside the other.  A RENAME that is answered with OK puts the mailbox under the parent its
superior path leads to, by the last level without the blanks around it; what is inside goes along,
and everything else keeps its path. -/
theorem folders (ext : Externals) (ops : List StoreOp) (now me : Int) (path source target : Path) :
    let db := runOps ext ops {}
    let created := answered (create now me path) db
    let renamed := answered (rename now me source target) db
    (created.1 ≠ .ok → Added db created.2 me (levelsOf (normalize path)).dropLast ∧ Keeps db created.2) ∧
      (renamed.1 ≠ .ok → Added db renamed.2 me (levelsAbove (splitLast (normalize target)).1) ∧
        Keeps db renamed.2) ∧
      (renamed.1 = .ok → ∃ n, find (sessionNamed db me) source = some n ∧
        Placed db renamed.2 me n (splitLast (normalize target)).1 (splitLast (normalize target)).2) := by
  intro db created renamed
  have hi : Intact db := intact_runOps ops
  have hg : Grounded (fun _ => True) db := grounded_runOps ops
  have hcreate : Tx.Ends (create now me path) db _ _ := create_ends hi
  have hrename : Tx.Ends (rename now me source target) db _ _ := rename_ends hi
  refine ⟨fun hne => ?_, fun hne => ?_, fun heq => ?_⟩
  · have hadded : Added db created.2 me (levelsOf (normalize path)).dropLast := by
      rcases answered_cases hcreate with (⟨h, -⟩ | ⟨-, h⟩) | ⟨-, h⟩
      · exact absurd h hne
      · change created.2 = db at h
        rw [h]
        exact .refl hi
      · exact h
    exact ⟨hadded, hadded.keeps hi⟩
  · have hadded : Added db renamed.2 me (levelsAbove (splitLast (normalize target)).1) := by
      rcases answered_cases hrename with (⟨h, -⟩ | ⟨-, h⟩) | ⟨-, h⟩
      · exact absurd h hne
      · exact h
      · exact h
    exact ⟨hadded, hadded.keeps hi⟩
  · rcases answered_cases hrename with (⟨-, h⟩ | ⟨hne, -⟩) | ⟨hno, -⟩
    · exact h.placed hi hg
    · exact absurd heq hne
    · change renamed.1 = .no at hno
      rw [hno] at heq
      cases heq

end Commands

/-- Ada's folders: `a` with `y` in it, `p`, and `p/a/y` by a name with slashes; and her inbox, moved
into `p`. -/
def shelves : List StoreOp :=
  [.createAccount ⟨"ada", false, 0, true⟩ 0, .createMailbox 1 "a" none none 0 true 0,
    .createMailbox 1 "y" (some 7) none 0 true 0, .createMailbox 1 "p" none none 0 true 0,
    .createMailbox 1 "p/a/y" none none 0 true 0, .updateMailbox 1 1 { parentId := some (some 9) }]

/-- `CREATE b/<bell>` and `RENAME a a/b/c` are refused, and leave `b` and `a/b` behind.  `RENAME a
"c "` is not found under `c `, `RENAME a p//c` not under `p//c`, and the inbox moved to the top not
under its name. After `RENAME a p/a`, what is found under `p/a/y` is another mailbox than the one
that was in `a`. -/
theorem folders_not_as_they_were :
    let db := runOps plainExternals shelves {}
    let bell := answered (create 0 1 ['b', '/', Char.ofNat 7]) db
    let inside := answered (rename 0 1 ['a'] ['a', '/', 'b', '/', 'c']) db
    let blank := answered (rename 0 1 ['a'] ['c', ' ']) db
    let empty := answered (rename 0 1 ['a'] ['p', '/', '/', 'c']) db
    let inboxed := answered (rename 0 1 "p/Inbox".toList ['c']) db
    let slashed := answered (rename 0 1 ['a'] ['p', '/', 'a']) db
    (bell.1 = .no ∧ pathAt db 1 11 = none ∧ pathAt bell.2 1 11 = some ['b']) ∧
      (inside.1 = .no ∧ pathAt inside.2 1 11 = some ['a', '/', 'b']) ∧
      (blank.1 = .ok ∧ pathAt blank.2 1 7 = some ['c']) ∧
      (empty.1 = .ok ∧ pathAt empty.2 1 7 = some ['p', '/', 'c']) ∧
      (inboxed.1 = .ok ∧ pathAt inboxed.2 1 1 = some inbox) ∧
      slashed.1 = .ok ∧ pathAt db 1 8 = some ['a', '/', 'y'] ∧
        (find (sessionNamed slashed.2 1) ['p', '/', 'a', '/', 'y']).map (·.mailbox.id) = some 10 := by
  decide

end UwuMail.Imap
