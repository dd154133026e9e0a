/-
# An address belongs to one

What each transaction of the directory does to the rows that take mail, and from it what a whole run
keeps.

`Refiled db db' rows` is what a transaction is seen as here: the tables stay in order, and every row
that takes mail afterwards did so before or is among `rows`.  Most transactions add nothing
(`Shrinks`); six file one row, and an account that comes back from the trash brings all of its own.
-/
import UwuMail.Directory.Doors

namespace UwuMail.Directory

open Store (StoreError)
open Table
open Tx (except_bind_ok)

variable {x : Text} {db d db' : Db} {name : Name} {rows : List Taker}

/-! ## 1. Steps that add a row, and steps that add none -/

structure Refiled (db db' : Db) (rows : List Taker) : Prop where
  filed : Filed db → Filed db'
  takers : Filed db → ∀ e ∈ db'.takers, e ∈ db.takers ∨ e ∈ rows

theorem Refiled.refl (db : Db) (rows : List Taker) : Refiled db db rows :=
  ⟨id, fun _ _ h => .inl h⟩

theorem Refiled.trans {rows' : List Taker} (h : Refiled db d rows) (h' : Refiled d db' rows') :
    Refiled db db' (rows ++ rows') := by
  refine ⟨fun hf => h'.filed (h.filed hf), fun hf e he => ?_⟩
  rcases h'.takers (h.filed hf) e he with he | he
  · exact (h.takers hf e he).imp_right (List.mem_append_left _)
  · exact .inr (List.mem_append_right _ he)

theorem Refiled.of_sameButIdentities (h : SameButIdentities db db') : Refiled db db' [] := by
  obtain ⟨i, n, rfl⟩ := h
  exact ⟨fun hf => ⟨hf.names, hf.groups, hf.masked, hf.accounts, hf.addresses, hf.owners⟩,
    fun _ e he => .inl he⟩

/-- An identity more or less does not matter here. -/
theorem Refiled.then (h : Refiled db d rows) (h' : SameButIdentities d db') : Refiled db db' rows := by
  simpa using h.trans (.of_sameButIdentities h')

/-- No row is new, none takes mail that did not, and no account is new. -/
structure Shrinks (db db' : Db) : Prop where
  addresses : db'.addresses.Sublist db.addresses
  groups : (db'.groups.map (·.key)).Sublist (db.groups.map (·.key))
  forwards : (db'.forwardAddresses.map (·.key)).Sublist (db.forwardAddresses.map (·.key))
  masked : (db'.maskedAddresses.map (·.key)).Sublist (db.maskedAddresses.map (·.key))
  delivers : ∀ m' ∈ db'.maskedAddresses, db'.delivers m' →
    ∃ m ∈ db.maskedAddresses, m.key = m'.key ∧ db.delivers m
  owners : ∀ m' ∈ db'.maskedAddresses, ∀ id ∈ m'.accountId, ∃ m ∈ db.maskedAddresses, id ∈ m.accountId
  accounts : ∀ a' ∈ db'.accounts, ∃ a ∈ db.accounts, a.id = a'.id
  living : ∀ id, db'.living id → db.living id
  highWater : db'.accountHighWater = db.accountHighWater

theorem Shrinks.names (h : Shrinks db db') : db'.names.Sublist db.names :=
  (((h.addresses.map _).append h.groups).append h.forwards).append h.masked

theorem Shrinks.filed (h : Shrinks db db') (hf : Filed db) : Filed db' where
  names := h.names.nodup hf.names
  groups := fun g hg => by
    obtain ⟨g', hg', hk⟩ := List.mem_map.1 (h.groups.subset (List.mem_map_of_mem hg))
    have hlocal : g'.localPart = g.localPart := congrArg Prod.fst hk
    exact hlocal ▸ hf.groups g' hg'
  masked := fun m hm => by
    obtain ⟨m', hm', hk⟩ := List.mem_map.1 (h.masked.subset (List.mem_map_of_mem hm))
    have hlocal : m'.localPart = m.localPart := congrArg Prod.fst hk
    exact hlocal ▸ hf.masked m' hm'
  accounts := fun a ha => by
    obtain ⟨a', ha', hid⟩ := h.accounts a ha
    rw [h.highWater, ← hid]
    exact hf.accounts a' ha'
  addresses := fun a ha => by
    rw [h.highWater]
    exact hf.addresses a (h.addresses.subset ha)
  owners := fun m hm id hid => by
    obtain ⟨m', hm', hid'⟩ := h.owners m hm id hid
    rw [h.highWater]
    exact hf.owners m' hm' id hid'

theorem Shrinks.takers (h : Shrinks db db') : ∀ e ∈ db'.takers, e ∈ db.takers := by
  rintro ⟨k, name⟩ he
  cases k with
  | account =>
    obtain ⟨a, ha, hk, hl⟩ := mem_takers_account.1 he
    exact mem_takers_account.2 ⟨a, h.addresses.subset ha, hk, h.living _ hl⟩
  | group =>
    obtain ⟨g, hg, hk⟩ := mem_takers_group.1 he
    obtain ⟨g', hg', hk'⟩ := List.mem_map.1 (h.groups.subset (List.mem_map_of_mem hg))
    exact mem_takers_group.2 ⟨g', hg', hk'.trans hk⟩
  | forward =>
    obtain ⟨f, hf, hk⟩ := mem_takers_forward.1 he
    obtain ⟨f', hf', hk'⟩ := List.mem_map.1 (h.forwards.subset (List.mem_map_of_mem hf))
    exact mem_takers_forward.2 ⟨f', hf', hk'.trans hk⟩
  | masked =>
    obtain ⟨m, hm, hk, hd⟩ := mem_takers_masked.1 he
    obtain ⟨m', hm', hk', hd'⟩ := h.delivers m hm hd
    exact mem_takers_masked.2 ⟨m', hm', hk'.trans hk, hd'⟩

theorem Shrinks.refiled (h : Shrinks db db') (rows : List Taker) : Refiled db db' rows :=
  ⟨h.filed, fun _ e he => .inl (h.takers e he)⟩

/-- The rows are the same, and so is who is living. -/
theorem Shrinks.of_same (haddresses : db'.addresses = db.addresses) (hgroups : db'.groups = db.groups)
    (hforwards : db'.forwardAddresses = db.forwardAddresses)
    (hmasked : db'.maskedAddresses = db.maskedAddresses)
    (haccounts : db'.accounts.map (fun a => (a.id, a.deletedAt)) =
      db.accounts.map fun a => (a.id, a.deletedAt))
    (hwater : db'.accountHighWater = db.accountHighWater) : Shrinks db db' := by
  have hliving : db'.living = db.living := by
    funext id
    have h : ∀ t : List Account, (t.any fun a => a.id == id && a.deletedAt.isNone) =
        (t.map fun a => (a.id, a.deletedAt)).any fun a => a.1 == id && a.2.isNone := fun t => by
      rw [List.any_map]
      rfl
    rw [Db.living, Db.living, h, h, haccounts]
  refine ⟨by rw [haddresses], by rw [hgroups], by rw [hforwards], by rw [hmasked], ?_, ?_, ?_, ?_,
    hwater⟩
  · intro m hm hd
    exact ⟨m, hmasked ▸ hm, rfl, by simpa only [Db.delivers, hliving] using hd⟩
  · intro m hm id hid
    exact ⟨m, hmasked ▸ hm, hid⟩
  · intro a ha
    have := List.mem_map_of_mem (f := fun a : Account => (a.id, a.deletedAt)) ha
    rw [haccounts] at this
    obtain ⟨a', ha', hk⟩ := List.mem_map.1 this
    exact ⟨a', ha', congrArg Prod.fst hk⟩
  · intro id h
    rwa [hliving] at h

/-- A transaction that writes none of the columns that matter here. -/
theorem Refiled.of_same (haddresses : db'.addresses = db.addresses) (hgroups : db'.groups = db.groups)
    (hforwards : db'.forwardAddresses = db.forwardAddresses)
    (hmasked : db'.maskedAddresses = db.maskedAddresses)
    (haccounts : db'.accounts.map (fun a => (a.id, a.deletedAt)) =
      db.accounts.map fun a => (a.id, a.deletedAt))
    (hwater : db'.accountHighWater = db.accountHighWater) : Refiled db db' rows :=
  (Shrinks.of_same haddresses hgroups hforwards hmasked haccounts hwater).refiled rows

theorem map_accounts_updateWhere {p : Account → Bool} {f : Account → Account}
    (hf : ∀ a, (f a).id = a.id ∧ (f a).deletedAt = a.deletedAt) (t : List Account) :
    (updateWhere p f t).map (fun a => (a.id, a.deletedAt)) = t.map fun a => (a.id, a.deletedAt) :=
  map_updateWhere (fun a => by rw [(hf a).1, (hf a).2]) p t

/-! ## 2. One row more -/

theorem living_of_append {a : Account} {id : Int}
    (h : Db.living { db with accounts := db.accounts ++ [a] } id)
    (hne : a.id ≠ id) : db.living id := by
  simpa [Db.living, hne] using h

/-- A new address of an account that is there. -/
theorem Refiled.addAddress (a : Address) (hfree : a.key ∉ db.names)
    (howner : Filed db → a.accountId ≤ db.accountHighWater) :
    Refiled db { db with addresses := db.addresses ++ [a] }
      (if db.living a.accountId then [(.account, a.key)] else []) := by
  constructor
  · intro hf
    refine ⟨?_, hf.groups, hf.masked, hf.accounts, ?_, hf.owners⟩
    · have hperm : (Db.names { db with addresses := db.addresses ++ [a] }).Perm (a.key :: db.names) := by
        simp only [Db.names, List.map_append, List.map_cons, List.map_nil, List.append_assoc]
        exact List.perm_middle
      rw [hperm.nodup_iff]
      exact List.nodup_cons.2 ⟨hfree, hf.names⟩
    · intro a' ha'
      rcases List.mem_append.1 ha' with ha' | ha'
      · exact hf.addresses a' ha'
      · rw [List.mem_singleton.1 ha']
        exact howner hf
  · rintro - ⟨k, name⟩ he
    cases k with
    | account =>
      obtain ⟨a', ha', hk, hl⟩ := mem_takers_account.1 he
      rcases List.mem_append.1 ha' with ha' | ha'
      · exact .inl (mem_takers_account.2 ⟨a', ha', hk, hl⟩)
      · obtain rfl := List.mem_singleton.1 ha'
        have hl : db.living a'.accountId := hl
        rw [if_pos hl, ← hk]
        exact .inr List.mem_cons_self
    | group =>
      have hrow := mem_takers_group.1 he
      exact .inl (mem_takers_group.2 hrow)
    | forward =>
      have hrow := mem_takers_forward.1 he
      exact .inl (mem_takers_forward.2 hrow)
    | masked =>
      have hrow := mem_takers_masked.1 he
      exact .inl (mem_takers_masked.2 hrow)

theorem Refiled.addGroup (g : Group) (hfree : g.key ∉ db.names) (hplus : '+' ∉ g.localPart.toList) :
    Refiled db { db with groups := db.groups ++ [g] } [(.group, g.key)] := by
  constructor
  · intro hf
    refine ⟨?_, ?_, hf.masked, hf.accounts, hf.addresses, hf.owners⟩
    · have hperm : (Db.names { db with groups := db.groups ++ [g] }).Perm (g.key :: db.names) := by
        simp only [Db.names, List.map_append, List.map_cons, List.map_nil, List.append_assoc]
        refine (List.Perm.append_left _ List.perm_middle).trans ?_
        exact List.perm_middle
      rw [hperm.nodup_iff]
      exact List.nodup_cons.2 ⟨hfree, hf.names⟩
    · intro g' hg'
      rcases List.mem_append.1 hg' with hg' | hg'
      · exact hf.groups g' hg'
      · rwa [List.mem_singleton.1 hg']
  · rintro - ⟨k, name⟩ he
    cases k with
    | group =>
      obtain ⟨g', hg', hk⟩ := mem_takers_group.1 he
      rcases List.mem_append.1 hg' with hg' | hg'
      · exact .inl (mem_takers_group.2 ⟨g', hg', hk⟩)
      · rw [← hk, List.mem_singleton.1 hg']
        exact .inr List.mem_cons_self
    | account =>
      have hrow := mem_takers_account.1 he
      exact .inl (mem_takers_account.2 hrow)
    | forward =>
      have hrow := mem_takers_forward.1 he
      exact .inl (mem_takers_forward.2 hrow)
    | masked =>
      have hrow := mem_takers_masked.1 he
      exact .inl (mem_takers_masked.2 hrow)

theorem Refiled.addForward (f : ForwardAddress) (hfree : f.key ∉ db.names) :
    Refiled db { db with forwardAddresses := db.forwardAddresses ++ [f] } [(.forward, f.key)] := by
  constructor
  · intro hf
    refine ⟨?_, hf.groups, hf.masked, hf.accounts, hf.addresses, hf.owners⟩
    have hperm : (Db.names { db with forwardAddresses := db.forwardAddresses ++ [f] }).Perm
        (f.key :: db.names) := by
      simp only [Db.names, List.map_append, List.map_cons, List.map_nil, List.append_assoc]
      refine (List.Perm.append_left _ (List.Perm.append_left _ List.perm_middle)).trans ?_
      rw [← List.append_assoc, ← List.append_assoc]
      exact List.perm_middle
    rw [hperm.nodup_iff]
    exact List.nodup_cons.2 ⟨hfree, hf.names⟩
  · rintro - ⟨k, name⟩ he
    cases k with
    | forward =>
      obtain ⟨f', hf', hk⟩ := mem_takers_forward.1 he
      rcases List.mem_append.1 hf' with hf' | hf'
      · exact .inl (mem_takers_forward.2 ⟨f', hf', hk⟩)
      · rw [← hk, List.mem_singleton.1 hf']
        exact .inr List.mem_cons_self
    | account =>
      have hrow := mem_takers_account.1 he
      exact .inl (mem_takers_account.2 hrow)
    | group =>
      have hrow := mem_takers_group.1 he
      exact .inl (mem_takers_group.2 hrow)
    | masked =>
      have hrow := mem_takers_masked.1 he
      exact .inl (mem_takers_masked.2 hrow)

theorem Refiled.addMasked (m : MaskedAddress) (hfree : m.key ∉ db.names)
    (hplus : '+' ∉ m.localPart.toList) (howner : Filed db → ∀ id ∈ m.accountId, id ≤ db.accountHighWater) :
    Refiled db { db with maskedAddresses := db.maskedAddresses ++ [m] } [(.masked, m.key)] := by
  constructor
  · intro hf
    refine ⟨?_, hf.groups, ?_, hf.accounts, hf.addresses, ?_⟩
    · have hperm : (Db.names { db with maskedAddresses := db.maskedAddresses ++ [m] }).Perm
          (m.key :: db.names) := by
        simp only [Db.names, List.map_append, List.map_cons, List.map_nil]
        rw [← List.append_assoc]
        exact (List.perm_append_singleton _ _)
      rw [hperm.nodup_iff]
      exact List.nodup_cons.2 ⟨hfree, hf.names⟩
    · intro m' hm'
      rcases List.mem_append.1 hm' with hm' | hm'
      · exact hf.masked m' hm'
      · rwa [List.mem_singleton.1 hm']
    · intro m' hm' id hid
      rcases List.mem_append.1 hm' with hm' | hm'
      · exact hf.owners m' hm' id hid
      · rw [List.mem_singleton.1 hm'] at hid
        exact howner hf id hid
  · rintro - ⟨k, name⟩ he
    cases k with
    | masked =>
      obtain ⟨m', hm', hk, hd⟩ := mem_takers_masked.1 he
      rcases List.mem_append.1 hm' with hm' | hm'
      · exact .inl (mem_takers_masked.2 ⟨m', hm', hk, hd⟩)
      · rw [← hk, List.mem_singleton.1 hm']
        exact .inr List.mem_cons_self
    | account =>
      have hrow := mem_takers_account.1 he
      exact .inl (mem_takers_account.2 hrow)
    | group =>
      have hrow := mem_takers_group.1 he
      exact .inl (mem_takers_group.2 hrow)
    | forward =>
      have hrow := mem_takers_forward.1 he
      exact .inl (mem_takers_forward.2 hrow)

/-- An account with an id no account had before: nothing that is there becomes its own. -/
theorem Refiled.addAccount (a : Account) (hid : db.accountHighWater < a.id) :
    Refiled db { db with accounts := db.accounts ++ [a], accountHighWater := a.id } [] := by
  constructor
  · intro hf
    refine ⟨hf.names, hf.groups, hf.masked, ?_, fun a' ha' => ?_, fun m hm id h => ?_⟩
    · intro a' ha'
      rcases List.mem_append.1 ha' with ha' | ha'
      · exact (hf.accounts a' ha').trans hid.le
      · rw [List.mem_singleton.1 ha']
    · exact (hf.addresses a' ha').trans hid.le
    · exact (hf.owners m hm id h).trans hid.le
  · rintro hf ⟨k, name⟩ he
    left
    cases k with
    | account =>
      obtain ⟨a', ha', hk, hl⟩ := mem_takers_account.1 he
      have hle := hf.addresses a' ha'
      exact mem_takers_account.2 ⟨a', ha', hk, living_of_append hl (by omega)⟩
    | group =>
      have hrow := mem_takers_group.1 he
      exact mem_takers_group.2 hrow
    | forward =>
      have hrow := mem_takers_forward.1 he
      exact mem_takers_forward.2 hrow
    | masked =>
      obtain ⟨m, hm, hk, hd⟩ := mem_takers_masked.1 he
      refine mem_takers_masked.2 ⟨m, hm, hk, ?_⟩
      obtain ⟨hstate, hany⟩ := Bool.and_eq_true_iff.1 hd
      obtain ⟨id, hacc, hl⟩ := (Option.any_eq_true _ _).1 hany
      have hle := hf.owners m hm id hacc
      exact Bool.and_eq_true_iff.2 ⟨hstate, (Option.any_eq_true _ _).2
        ⟨id, hacc, living_of_append hl (by omega)⟩⟩

/-! ## 3. What a transaction adds -/

/-- The name an address stands for, where its domain is one of ours. -/
def Db.nameOf (x : Text) (db : Db) (address : String) : Option Name := do
  let (localPart, domain) ← (normalizeAddress x address).toOption
  let d ← (domainId db domain).toOption
  pure (localPart, d)

/-- The account a login stands for. -/
def Db.accountOf (x : Text) (db : Db) (login : String) : Option Int := do
  let key ← (loginKey x login).toOption
  (accountId db key).toOption

/-- The name a new masked address would get. -/
def Db.drawn (x : Text) (db : Db) (picks : List Pick) (account : Int) (new : NewMaskedAddress) :
    Option Name := do
  let emailPrefix ← (checkPrefix x new.emailPrefix).toOption
  let wanted ← (wantedDomain x new.domain).toOption
  let domainName ← (maskedDomain db account wanted).toOption
  let d ← (domainId db domainName).toOption
  let localPart ← db.drawMasked picks emailPrefix d domainName
  pure (localPart, d)

/-- The rows of an account that take mail while it is not in the trash. -/
def Db.rowsOf (db : Db) (account : Int) : List Taker :=
  ((db.addresses.filter (·.accountId == account)).map fun a => (.account, a.key)) ++
  ((db.maskedAddresses.filter fun m => m.accountId == some account && m.state != .deleted).map
    fun m => (.masked, m.key))

/-- **The rows an event brings to those that take mail**: the one it files, or those of the account
it takes out of the trash. -/
def Op.adds (x : Text) (db : Db) : Op → List Taker
  | .createAccount new => (db.nameOf x new.address).toList.map (Kind.account, ·)
  | .addAlias _ address login =>
    if (db.accountOf x login).any db.living then
      (db.nameOf x address).toList.map (Kind.account, ·)
    else []
  | .createOwnAlias _ account address =>
    if db.living account then (db.nameOf x address).toList.map (Kind.account, ·) else []
  | .createGroup _ new => (db.nameOf x new.address).toList.map (Kind.group, ·)
  | .setForwardAddress _ address _ _ => (db.nameOf x address).toList.map (Kind.forward, ·)
  | .createMaskedAddress _ picks account new =>
    (db.drawn x picks account new).toList.map (Kind.masked, ·)
  | .updateMaskedAddress _ id update =>
    if update.state.any (· != .deleted) then
      (db.maskedAddresses.filter fun m => m.id == id && m.accountId.any db.living).map
        fun m => (Kind.masked, m.key)
    else []
  | .restoreAccount login => (db.accountOf x login).toList.flatMap db.rowsOf
  | _ => []

theorem nameOf_eq {address l domain : String} {i : Int}
    (h : normalizeAddress x address = .ok (l, domain)) (hd : domainId db domain = .ok i) :
    db.nameOf x address = some (l, i) := by
  simp [Db.nameOf, h, hd, Except.toOption]

theorem Refiled.mono {rows' : List Taker} (h : Refiled db db' rows) (hsub : rows ⊆ rows') :
    Refiled db db' rows' :=
  ⟨h.filed, fun hf e he => (h.takers hf e he).imp_right (@hsub e)⟩

variable {login : String}

theorem le_of_accountId {n : Int} (hn : ∀ a ∈ db.accounts, a.id ≤ n) {id : Int}
    (h : accountId db login = .ok id) : id ≤ n := by
  unfold accountId at h
  split at h
  · next a ha =>
    cases h
    exact hn a (List.mem_of_find?_eq_some ha)
  · cases h

theorem notMem_names (h : addressInUse db name = false) : name ∉ db.names := by
  rw [← addressInUse_iff, h]
  exact Bool.false_ne_true

theorem sameButIdentities_addressChanged (account : Int) (address : String) (added : Bool) (db : Db) :
    SameButIdentities db (addressChanged x account address added db) := by
  unfold addressChanged
  split
  · exact .rfl' db
  · refine .foldl (fun db m => ?_) _ db
    split
    · exact sameButIdentities_grant ..
    · split
      · exact sameButIdentities_revoke ..
      · exact .rfl' db

theorem sameButIdentities_revokes (l : List (Int × String)) (db : Db) :
    SameButIdentities db (l.foldl (fun db r => revokeIdentities x r.1 r.2 db) db) := by
  have hstep : ∀ (db : Db) (r : Int × String), SameButIdentities db (revokeIdentities x r.1 r.2 db) :=
    fun db r => sameButIdentities_revoke x r.1 r.2 db
  exact .foldl hstep l db

theorem refiled_createAccount {new : NewAccount} (h : createAccount x new db = .ok db') :
    Refiled db db' (Op.adds x db (.createAccount new)) := by
  obtain ⟨⟨l, domain⟩, hnorm, h⟩ := except_bind_ok h
  obtain ⟨_, -, h⟩ := except_bind_ok h
  obtain ⟨i, hi, h⟩ := except_bind_ok h
  obtain ⟨_, -, h⟩ := except_bind_ok h
  obtain ⟨_, hfree, h⟩ := except_bind_ok h
  obtain rfl := Except.ok.inj h
  have hno : (l, i) ∉ db.names := by
    have := check_ok.1 hfree
    simp only [Bool.not_eq_true', Bool.or_eq_false_iff] at this
    exact notMem_names this.2
  simp only [Op.adds, nameOf_eq hnorm hi]
  let a : Account :=
    { id := db.accountHighWater + 1
      login := written l domain
      displayName := x.trim new.displayName
      role := new.role
      quotaBytes := new.quotaBytes }
  have haccount : Refiled db _ _ := .addAccount a (by simp [a])
  have haddress : Refiled { db with accounts := db.accounts ++ [a], accountHighWater := a.id } _ _ :=
    .addAddress ⟨l, i, a.id, .primary, false⟩ hno fun _ => le_rfl
  refine (haccount.trans haddress).mono ?_
  split <;> simp [Address.key]

theorem refiled_addAlias {now : Int} {address login : String}
    (h : addAlias x now address login db = .ok db') :
    Refiled db db' (Op.adds x db (.addAlias now address login)) := by
  obtain ⟨⟨l, domain⟩, hnorm, h⟩ := except_bind_ok h
  obtain ⟨key, hkey, h⟩ := except_bind_ok h
  obtain ⟨i, hi, h⟩ := except_bind_ok h
  obtain ⟨_, -, h⟩ := except_bind_ok h
  obtain ⟨account, haccount, h⟩ := except_bind_ok h
  obtain ⟨_, -, h⟩ := except_bind_ok h
  obtain ⟨_, hfree, h⟩ := except_bind_ok h
  obtain rfl := Except.ok.inj h
  have hlogin : db.accountOf x login = some account := by
    simp [Db.accountOf, hkey, haccount, Except.toOption]
  simp only [Op.adds, hlogin, Option.any_some, nameOf_eq hnorm hi, Option.toList_some,
    List.map_cons, List.map_nil]
  have hno : (l, i) ∉ db.names := notMem_names (by simpa using check_ok.1 hfree)
  let released := deleteWhere (fun r => r.localPart == l && r.domainId == i) db.releasedAddresses
  have hsame : Shrinks db { db with releasedAddresses := released } :=
    .of_same rfl rfl rfl rfl rfl rfl
  have hadd : Refiled { db with releasedAddresses := released } _ _ :=
    .addAddress ⟨l, i, account, .alias, false⟩ hno fun hf =>
      le_of_accountId hf.accounts haccount
  exact (((hsame.refiled []).trans hadd).then (sameButIdentities_grant ..)).then
    (sameButIdentities_addressChanged ..)

variable {address : String}

theorem refiled_createOwnAlias {now account : Int}
    (h : createOwnAlias x now account address db = .ok db') :
    Refiled db db' (Op.adds x db (.createOwnAlias now account address)) := by
  obtain ⟨⟨l, domain⟩, hnorm, h⟩ := except_bind_ok h
  iterate 4 obtain ⟨_, -, h⟩ := except_bind_ok h
  obtain ⟨i, hi, h⟩ := except_bind_ok h
  obtain ⟨_, hfree, h⟩ := except_bind_ok h
  split at h
  · cases h
  · next a ha =>
    obtain ⟨_, -, h⟩ := except_bind_ok h
    obtain rfl := Except.ok.inj h
    have hno : (l, i) ∉ db.names := by
      have := check_ok.1 hfree
      simp only [Bool.not_eq_true', Bool.or_eq_false_iff] at this
      exact notMem_names this.1.1
    have hid : a.id = account := by simpa using List.find?_some ha
    let released := deleteWhere (fun r => r.localPart == l && r.domainId == i)
      (deleteWhere (fun r => decide (r.releasedAt < now - releasedAddressSecs))
        db.releasedAddresses)
    have hsame : Shrinks db { db with releasedAddresses := released } :=
      .of_same rfl rfl rfl rfl rfl rfl
    have hadd : Refiled { db with releasedAddresses := released } _ _ :=
      .addAddress ⟨l, i, account, .alias, true⟩ hno fun hf => by
        rw [← hid]
        exact hf.accounts a (List.mem_of_find?_eq_some ha)
    have hi : domainId db domain = .ok i := hi
    simp only [Op.adds, nameOf_eq hnorm hi, Option.toList_some, List.map_cons, List.map_nil]
    exact ((hsame.refiled []).trans hadd).then (sameButIdentities_grant ..)

theorem refiled_putGroupMembers (group : Int) (members : Option (List Int)) (db : Db) :
    Refiled db (db.putGroupMembers group members) [] := by
  cases members with
  | none => exact .refl db []
  | some members => exact .of_same rfl rfl rfl rfl rfl rfl

theorem refiled_setMembers (group : Int) (address name : String) (members : Option (List Int))
    (sendAs : Bool) (db : Db) : Refiled db (setMembers x group address name members sendAs db) [] := by
  have hgone := (refiled_putGroupMembers group members db).then
    (.foldl (fun db a => sameButIdentities_revoke x a address db)
      ((db.groupMemberIds group).filter fun a =>
        !(members.getD (db.groupMemberIds group)).contains a || !sendAs) _)
  unfold setMembers
  split
  · exact hgone.then (.foldl (fun db a => sameButIdentities_grant x a address name db)
      (members.getD (db.groupMemberIds group)) _)
  · exact hgone

theorem refiled_createGroup {now : Int} {new : NewGroup} (h : createGroup x now new db = .ok db') :
    Refiled db db' (Op.adds x db (.createGroup now new)) := by
  obtain ⟨⟨l, domain⟩, hnorm, h⟩ := except_bind_ok h
  obtain ⟨_, hplus, h⟩ := except_bind_ok h
  obtain ⟨name, -, h⟩ := except_bind_ok h
  obtain ⟨i, hi, h⟩ := except_bind_ok h
  obtain ⟨_, -, h⟩ := except_bind_ok h
  obtain ⟨_, -, h⟩ := except_bind_ok h
  obtain ⟨_, hfree, h⟩ := except_bind_ok h
  obtain ⟨members, -, h⟩ := except_bind_ok h
  obtain rfl := Except.ok.inj h
  have hno : (l, i) ∉ db.names := by
    have := check_ok.1 hfree
    simp only [Bool.not_eq_true', Bool.or_eq_false_iff] at this
    exact notMem_names this.2
  have hlocal : '+' ∉ l.toList := by simpa using check_ok.1 hplus
  let g : Group :=
    ⟨nextRowId (db.groups.map (·.id)), l, i, name, new.whoMaySend, new.membersMaySendAs⟩
  have hadd : Refiled db { db with groups := db.groups ++ [g] } [(.group, (l, i))] :=
    .addGroup g hno hlocal
  simp only [Op.adds, nameOf_eq hnorm hi, Option.toList_some, List.map_cons, List.map_nil]
  simpa using hadd.trans (refiled_setMembers (x := x) g.id (written l domain) name (some members)
    new.membersMaySendAs _)

theorem splitAddress_ok {r : String × String}
    (h : splitAddress x address = .ok r) : normalizeAddress x address = .ok r := by
  unfold splitAddress at h
  split at h
  · next hnorm => cases h; exact hnorm
  · cases h

theorem Shrinks.of_forwards {t : List ForwardAddress}
    (h : (t.map (·.key)).Sublist (db.forwardAddresses.map (·.key))) :
    Shrinks db { db with forwardAddresses := t } :=
  ⟨.refl _, .refl _, h, .refl _, fun m hm hd => ⟨m, hm, rfl, hd⟩, fun m hm _ hid => ⟨m, hm, hid⟩,
    fun a ha => ⟨a, ha, rfl⟩, fun _ hl => hl, rfl⟩

theorem Shrinks.of_groups {t : List Group} (members : List GroupMember)
    (h : (t.map (·.key)).Sublist (db.groups.map (·.key))) :
    Shrinks db { db with groups := t, groupMembers := members } :=
  ⟨.refl _, h, .refl _, .refl _, fun m hm hd => ⟨m, hm, rfl, hd⟩, fun m hm _ hid => ⟨m, hm, hid⟩,
    fun a ha => ⟨a, ha, rfl⟩, fun _ hl => hl, rfl⟩

theorem refiled_setForwardAddress {now : Int} {address note : String} {targets : List String}
    (h : setForwardAddress x now address targets note db = .ok db') :
    Refiled db db' (Op.adds x db (.setForwardAddress now address targets note)) := by
  obtain ⟨⟨l, domain⟩, hnorm, h⟩ := except_bind_ok h
  obtain ⟨normalized, -, h⟩ := except_bind_ok h
  obtain ⟨_, -, h⟩ := except_bind_ok h
  obtain ⟨_, -, h⟩ := except_bind_ok h
  obtain ⟨i, hi, h⟩ := except_bind_ok h
  obtain ⟨_, -, h⟩ := except_bind_ok h
  obtain ⟨_, hfree, h⟩ := except_bind_ok h
  obtain rfl := Except.ok.inj h
  simp only [Op.adds, nameOf_eq (splitAddress_ok hnorm) hi, Option.toList_some, List.map_cons,
    List.map_nil]
  split
  · have hkeys := map_updateWhere (g := ForwardAddress.key)
      (f := fun f => { f with targets := normalized.eraseDups, note := x.trim note }) (fun _ => rfl)
      (·.key == (l, i)) db.forwardAddresses
    exact (Shrinks.of_forwards (by rw [hkeys])).refiled _
  · next hnew =>
    refine .addForward _ (fun hmem => ?_)
    have hother := check_ok.1 hfree
    have := addressInUse_iff.2 hmem
    simp only [addressInUse, Bool.or_eq_true] at this
    rcases this with h | h
    · exact hnew h
    · rw [show takenByOtherThanForwarding db (l, i) = true from h] at hother
      cases hother

theorem refiled_removeForwardAddress
    (h : removeForwardAddress x address db = .ok db') : Refiled db db' [] := by
  obtain ⟨⟨l, domain⟩, -, h⟩ := except_bind_ok h
  obtain ⟨i, -, h⟩ := except_bind_ok h
  obtain ⟨_, -, h⟩ := except_bind_ok h
  obtain rfl := Except.ok.inj h
  exact (Shrinks.of_forwards ((deleteWhere_sublist _ _).map _)).refiled []

theorem refiled_updateGroup {update : GroupUpdate}
    (h : updateGroup x address update db = .ok db') : Refiled db db' [] := by
  obtain ⟨⟨l, domain⟩, -, h⟩ := except_bind_ok h
  obtain ⟨name, -, h⟩ := except_bind_ok h
  obtain ⟨g, -, h⟩ := except_bind_ok h
  obtain ⟨members, -, h⟩ := except_bind_ok h
  obtain rfl := Except.ok.inj h
  have hkeys := map_updateWhere (g := Group.key)
    (f := fun g => { g with
      name := name.getD g.name, whoMaySend := update.whoMaySend.getD g.whoMaySend,
      membersMaySendAs := update.membersMaySendAs.getD g.membersMaySendAs }) (fun _ => rfl)
    (·.id == g.id) db.groups
  have hrows : Shrinks db _ := .of_groups db.groupMembers (by rw [hkeys])
  exact (hrows.refiled []).trans (refiled_setMembers ..)

theorem refiled_deleteGroup (h : deleteGroup x address db = .ok db') :
    Refiled db db' [] := by
  obtain ⟨⟨l, domain⟩, -, h⟩ := except_bind_ok h
  obtain ⟨g, -, h⟩ := except_bind_ok h
  obtain rfl := Except.ok.inj h
  have hrows : Shrinks db { db with
      groups := deleteWhere (·.id == g.id) db.groups
      groupMembers := deleteWhere (·.groupId == g.id) db.groupMembers } :=
    .of_groups _ ((deleteWhere_sublist _ _).map _)
  exact (hrows.refiled []).then (.foldl (fun db m => sameButIdentities_revoke x m _ db) _ _)

theorem refiled_createMaskedAddress {now account : Int} {picks : List Pick} {new : NewMaskedAddress}
    (h : createMaskedAddress x now picks account new db = .ok db') :
    Refiled db db' (Op.adds x db (.createMaskedAddress now picks account new)) := by
  iterate 4 obtain ⟨_, -, h⟩ := except_bind_ok h
  obtain ⟨emailPrefix, hprefix, h⟩ := except_bind_ok h
  obtain ⟨_, -, h⟩ := except_bind_ok h
  obtain ⟨wanted, hwanted, h⟩ := except_bind_ok h
  obtain ⟨_, hlive, h⟩ := except_bind_ok h
  obtain ⟨domainName, hdomain, h⟩ := except_bind_ok h
  obtain ⟨i, hi, h⟩ := except_bind_ok h
  obtain ⟨_, -, h⟩ := except_bind_ok h
  split at h
  · cases h
  · next l hl =>
    obtain rfl := Except.ok.inj h
    have hdrawn : db.drawn x picks account new = some (l, i) := by
      simp [Db.drawn, hprefix, hwanted, hdomain, hi, hl, Except.toOption]
    have hfree := List.find?_some hl
    obtain ⟨pick, -, rfl⟩ := List.mem_map.1 (List.mem_of_find?_eq_some hl)
    simp only [Op.adds, hdrawn, Option.toList_some, List.map_cons, List.map_nil]
    refine .addMasked _ ?_ (plus_notMem_random pick (plus_notMem_before hprefix)) fun hf id hid => ?_
    · simp only [Db.freeMasked, Bool.and_eq_true, Bool.not_eq_true'] at hfree
      exact notMem_names hfree.2
    · cases hid
      obtain ⟨a, ha, hlive⟩ := List.any_eq_true.1 (check_ok.1 hlive)
      have hid : a.id = account := by simpa using (Bool.and_eq_true_iff.1 hlive).1
      exact hid ▸ hf.accounts a ha

/-- The masked addresses rewritten one by one: the names and the owners stay. -/
theorem Shrinks.of_masked {p : MaskedAddress → Bool} {f : MaskedAddress → MaskedAddress}
    (hkey : ∀ m, (f m).key = m.key) (hacc : ∀ m, (f m).accountId = m.accountId)
    (hstate : ∀ m, (f m).state ≠ .deleted → m.state ≠ .deleted) :
    Shrinks db { db with maskedAddresses := updateWhere p f db.maskedAddresses } := by
  refine ⟨.refl _, .refl _, .refl _, by rw [map_updateWhere hkey], fun m hm hd => ?_,
    fun m hm id hid => ?_, fun a ha => ⟨a, ha, rfl⟩, fun _ hl => hl, rfl⟩
  · obtain ⟨m₀, hm₀, rfl⟩ := mem_updateWhere.1 hm
    refine ⟨m₀, hm₀, ?_, ?_⟩
    · split
      · exact (hkey m₀).symm
      · rfl
    · obtain ⟨hs, ha⟩ := Bool.and_eq_true_iff.1 hd
      refine Bool.and_eq_true_iff.2 ⟨?_, ?_⟩
      · split at hs
        · simpa using hstate m₀ (by simpa using hs)
        · exact hs
      · split at ha
        · rw [hacc] at ha
          exact ha
        · exact ha
  · obtain ⟨m₀, hm₀, rfl⟩ := mem_updateWhere.1 hm
    refine ⟨m₀, hm₀, ?_⟩
    split at hid
    · rwa [hacc] at hid
    · exact hid

theorem refiled_updateMaskedAddress {account id : Int} {update : MaskedUpdate}
    (h : updateMaskedAddress x account id update db = .ok db') :
    Refiled db db' (Op.adds x db (.updateMaskedAddress account id update)) := by
  obtain ⟨forDomain, -, h⟩ := except_bind_ok h
  obtain ⟨description, -, h⟩ := except_bind_ok h
  obtain ⟨url, -, h⟩ := except_bind_ok h
  obtain ⟨⟨before, email⟩, -, h⟩ := except_bind_ok h
  obtain ⟨_, -, h⟩ := except_bind_ok h
  obtain rfl := Except.ok.inj h
  let f : MaskedAddress → MaskedAddress := fun m => { m with
    state := update.state.getD m.state, forDomain := forDomain.getD m.forDomain,
    description := description.getD m.description, url := url.getD m.url }
  have hrows : Refiled db { db with maskedAddresses := updateWhere (·.id == id) f db.maskedAddresses }
      (Op.adds x db (.updateMaskedAddress account id update)) := by
    have hkeys := map_updateWhere (g := MaskedAddress.key) (f := f) (fun _ => rfl) (·.id == id)
      db.maskedAddresses
    have hlocals := map_updateWhere (g := MaskedAddress.localPart) (f := f) (fun _ => rfl)
      (·.id == id) db.maskedAddresses
    have howners := map_updateWhere (g := MaskedAddress.accountId) (f := f) (fun _ => rfl)
      (·.id == id) db.maskedAddresses
    constructor
    · intro hf
      refine ⟨?_, hf.groups, fun m hm => ?_, hf.accounts, hf.addresses, fun m hm id' hid => ?_⟩
      · have := hf.names
        simp only [Db.names] at this ⊢
        rwa [hkeys]
      · have hmem := List.mem_map_of_mem (f := MaskedAddress.localPart) hm
        rw [hlocals] at hmem
        obtain ⟨m₀, hm₀, hl⟩ := List.mem_map.1 hmem
        exact hl ▸ hf.masked m₀ hm₀
      · have hmem := List.mem_map_of_mem (f := MaskedAddress.accountId) hm
        rw [howners] at hmem
        obtain ⟨m₀, hm₀, hl⟩ := List.mem_map.1 hmem
        exact hf.owners m₀ hm₀ id' (hl ▸ hid)
    · rintro - ⟨k, name⟩ he
      cases k with
      | account =>
        have hrow := mem_takers_account.1 he
        exact .inl (mem_takers_account.2 hrow)
      | group =>
        have hrow := mem_takers_group.1 he
        exact .inl (mem_takers_group.2 hrow)
      | forward =>
        have hrow := mem_takers_forward.1 he
        exact .inl (mem_takers_forward.2 hrow)
      | masked =>
        obtain ⟨m, hm, rfl, hd⟩ := mem_takers_masked.1 he
        obtain ⟨m₀, hm₀, rfl⟩ := mem_updateWhere.1 hm
        obtain ⟨hs, ha⟩ := Bool.and_eq_true_iff.1 hd
        split at hs
        · next hid =>
          rw [if_pos hid] at ha ⊢
          cases hstate : update.state with
          | none =>
            simp only [f, hstate, Option.getD_none] at hs
            exact .inl (mem_takers_masked.2 ⟨m₀, hm₀, rfl, Bool.and_eq_true_iff.2 ⟨hs, ha⟩⟩)
          | some s =>
            simp only [f, hstate, Option.getD_some] at hs
            right
            simp only [Op.adds, hstate, Option.any_some, hs, if_true, List.mem_map]
            exact ⟨m₀, List.mem_filter.2 ⟨hm₀, Bool.and_eq_true_iff.2 ⟨hid, ha⟩⟩, rfl⟩
        · next hid =>
          rw [if_neg hid] at ha ⊢
          exact .inl (mem_takers_masked.2 ⟨m₀, hm₀, rfl, Bool.and_eq_true_iff.2 ⟨hs, ha⟩⟩)
  split
  · exact hrows.then (sameButIdentities_revoke ..)
  · exact hrows

theorem refiled_noteMaskedMessage (now id : Int) (db : Db) :
    Refiled db (noteMaskedMessage now id db) [] := by
  refine Shrinks.refiled (Shrinks.of_masked (by intro m; rfl) (by intro m; rfl) fun m hm => ?_) []
  intro hdel
  simp [hdel] at hm

theorem refiled_retirePendingMaskedAddresses (now : Int) (db : Db) :
    Refiled db (retirePendingMaskedAddresses now db) [] := by
  refine Shrinks.refiled (Shrinks.of_masked (by intro m; rfl) (by intro m; rfl) fun m hm => ?_) []
  exact absurd rfl hm

/-- Accounts that stay as they are, but for who is living: fewer than before. -/
theorem living_subset_of_accounts {t : List Account}
    (h : ∀ a ∈ t, a.deletedAt.isNone → ∃ a' ∈ db.accounts, a'.id = a.id ∧ a'.deletedAt.isNone)
    {id : Int} (hl : t.any fun a => a.id == id && a.deletedAt.isNone) : db.living id := by
  obtain ⟨a, ha, hid⟩ := List.any_eq_true.1 hl
  simp only [Bool.and_eq_true, beq_iff_eq] at hid
  obtain ⟨a', ha', hid', hdel⟩ := h a ha hid.2
  exact List.any_eq_true.2 ⟨a', ha', by simp [hid', hid.1, hdel]⟩

theorem Shrinks.dropDomain (id : Int) (db : Db) : Shrinks db (db.dropDomain id) where
  addresses := deleteWhere_sublist _ _
  groups := (deleteWhere_sublist _ _).map _
  forwards := (deleteWhere_sublist _ _).map _
  masked := (deleteWhere_sublist _ _).map _
  delivers := fun m hm hd => by
    refine ⟨m, (mem_deleteWhere.1 hm).1, rfl, ?_⟩
    obtain ⟨hs, ha⟩ := Bool.and_eq_true_iff.1 hd
    obtain ⟨owner, howner, hl⟩ := (Option.any_eq_true _ _).1 ha
    refine Bool.and_eq_true_iff.2 ⟨hs, (Option.any_eq_true _ _).2 ⟨owner, howner, ?_⟩⟩
    refine living_subset_of_accounts (fun a ha hdel => ?_) hl
    obtain ⟨a₀, ha₀, rfl⟩ := mem_updateWhere.1 ha
    exact ⟨a₀, ha₀, by split <;> rfl, by split at hdel <;> exact hdel⟩
  owners := fun m hm _ hid => ⟨m, (mem_deleteWhere.1 hm).1, hid⟩
  accounts := fun a ha => by
    obtain ⟨a₀, ha₀, rfl⟩ := mem_updateWhere.1 ha
    exact ⟨a₀, ha₀, by split <;> rfl⟩
  living := fun i hl => by
    refine living_subset_of_accounts (fun a ha hdel => ?_) hl
    obtain ⟨a₀, ha₀, rfl⟩ := mem_updateWhere.1 ha
    exact ⟨a₀, ha₀, by split <;> rfl, by split at hdel <;> exact hdel⟩
  highWater := rfl

variable {domain : String}

theorem refiled_deleteDomain (h : deleteDomain x domain db = .ok db') :
    Refiled db db' [] := by
  obtain ⟨domain, -, h⟩ := except_bind_ok h
  obtain ⟨i, -, h⟩ := except_bind_ok h
  obtain ⟨_, -, h⟩ := except_bind_ok h
  obtain rfl := Except.ok.inj h
  exact ((Shrinks.dropDomain i db).refiled []).then (sameButIdentities_revokes _ _)

theorem Shrinks.dropAccount (id : Int) (db : Db) : Shrinks db (db.dropAccount id) where
  addresses := deleteWhere_sublist _ _
  groups := .refl _
  forwards := .refl _
  masked := by
    rw [show (db.dropAccount id).maskedAddresses.map (·.key) = db.maskedAddresses.map (·.key) from
      map_updateWhere (by intro m; rfl) _ _]
  delivers := fun m hm hd => by
    obtain ⟨m₀, hm₀, rfl⟩ := mem_updateWhere.1 hm
    split at hd
    · simp [Db.delivers] at hd
    · next hacc =>
      rw [if_neg hacc]
      refine ⟨m₀, hm₀, rfl, ?_⟩
      obtain ⟨hs, ha⟩ := Bool.and_eq_true_iff.1 hd
      obtain ⟨owner, howner, hl⟩ := (Option.any_eq_true _ _).1 ha
      refine Bool.and_eq_true_iff.2 ⟨hs, (Option.any_eq_true _ _).2 ⟨owner, howner, ?_⟩⟩
      exact living_subset_of_accounts
        (fun a ha hdel => ⟨a, (mem_deleteWhere.1 ha).1, rfl, hdel⟩) hl
  owners := fun m hm i hid => by
    obtain ⟨m₀, hm₀, rfl⟩ := mem_updateWhere.1 hm
    split at hid
    · cases hid
    · exact ⟨m₀, hm₀, hid⟩
  accounts := fun a ha => ⟨a, (mem_deleteWhere.1 ha).1, rfl⟩
  living := fun _ hl => living_subset_of_accounts
    (fun a ha hdel => ⟨a, (mem_deleteWhere.1 ha).1, rfl, hdel⟩) hl
  highWater := rfl

theorem refiled_deleteAccount (h : deleteAccount x login db = .ok db') :
    Refiled db db' [] := by
  obtain ⟨key, -, h⟩ := except_bind_ok h
  obtain ⟨id, -, h⟩ := except_bind_ok h
  obtain rfl := Except.ok.inj h
  exact ((Shrinks.dropAccount id db).refiled []).then (sameButIdentities_revokes _ _)

/-- The addresses an alias gave back. -/
theorem Shrinks.of_addresses {t : List Address} (h : t.Sublist db.addresses)
    (released : List ReleasedAddress) :
    Shrinks db { db with addresses := t, releasedAddresses := released } :=
  ⟨h, .refl _, .refl _, .refl _, fun m hm hd => ⟨m, hm, rfl, hd⟩, fun m hm _ hid => ⟨m, hm, hid⟩,
    fun a ha => ⟨a, ha, rfl⟩, fun _ hl => hl, rfl⟩

theorem refiled_removeAlias (h : removeAlias x address db = .ok db') :
    Refiled db db' [] := by
  obtain ⟨⟨l, domain⟩, -, h⟩ := except_bind_ok h
  obtain ⟨i, -, h⟩ := except_bind_ok h
  split at h
  · cases h
  · next a ha =>
    obtain rfl := Except.ok.inj h
    have hrows := (Shrinks.of_addresses
      (deleteWhere_sublist (fun a => a.key == (l, i) && a.kind == .alias) db.addresses)
      db.releasedAddresses).refiled []
    exact (hrows.then (sameButIdentities_revoke x a.accountId (written l domain) _)).then
      (sameButIdentities_addressChanged a.accountId (written l domain) false _)

theorem refiled_deleteOwnAlias {now account : Int}
    (h : deleteOwnAlias x now account address db = .ok db') : Refiled db db' [] := by
  obtain ⟨⟨l, domain⟩, -, h⟩ := except_bind_ok h
  obtain ⟨i, -, h⟩ := except_bind_ok h
  split at h
  · cases h
  · obtain ⟨_, -, h⟩ := except_bind_ok h
    obtain rfl := Except.ok.inj h
    refine Refiled.then ?_ (sameButIdentities_revoke ..)
    exact (Shrinks.of_addresses (deleteWhere_sublist _ _) _).refiled []

/-- Fewer accounts are living, and nothing else matters. -/
theorem Shrinks.of_accounts {t : List Account} (domains : List Domain) (fetch : List FetchAccount)
    (hids : ∀ a ∈ t, ∃ a' ∈ db.accounts, a'.id = a.id)
    (h : ∀ a ∈ t, a.deletedAt.isNone → ∃ a' ∈ db.accounts, a'.id = a.id ∧ a'.deletedAt.isNone) :
    Shrinks db { db with accounts := t, domains, fetchAccounts := fetch } where
  addresses := .refl _
  groups := .refl _
  forwards := .refl _
  masked := .refl _
  delivers := fun m hm hd => by
    obtain ⟨hs, ha⟩ := Bool.and_eq_true_iff.1 hd
    obtain ⟨owner, howner, hl⟩ := (Option.any_eq_true _ _).1 ha
    exact ⟨m, hm, rfl, Bool.and_eq_true_iff.2
      ⟨hs, (Option.any_eq_true _ _).2 ⟨owner, howner, living_subset_of_accounts h hl⟩⟩⟩
  owners := fun m hm _ hid => ⟨m, hm, hid⟩
  accounts := hids
  living := fun _ hl => living_subset_of_accounts h hl
  highWater := rfl

theorem refiled_trashAccount {now : Int}
    (h : trashAccount x now login db = .ok db') : Refiled db db' [] := by
  obtain ⟨key, -, h⟩ := except_bind_ok h
  obtain ⟨account, -, h⟩ := except_bind_ok h
  split at h
  · cases h
    exact .refl db []
  · obtain ⟨_, -, h⟩ := except_bind_ok h
    obtain rfl := Except.ok.inj h
    refine (Shrinks.of_accounts _ _ (fun a ha => ?_) fun a ha hdel => ?_).refiled []
    · obtain ⟨a₀, ha₀, rfl⟩ := mem_updateWhere.1 ha
      exact ⟨a₀, ha₀, by split <;> rfl⟩
    · obtain ⟨a₀, ha₀, rfl⟩ := mem_updateWhere.1 ha
      split at hdel
      · cases hdel
      · next hid => exact ⟨a₀, ha₀, by rw [if_neg hid], hdel⟩

theorem refiled_restoreAccount (h : restoreAccount x login db = .ok db') :
    Refiled db db' (Op.adds x db (.restoreAccount login)) := by
  obtain ⟨key, hkey, h⟩ := except_bind_ok h
  obtain ⟨account, haccount, h⟩ := except_bind_ok h
  obtain ⟨_, -, h⟩ := except_bind_ok h
  obtain ⟨_, -, h⟩ := except_bind_ok h
  obtain rfl := Except.ok.inj h
  have hid : db.accountOf x login = some account.id := by
    unfold loadAccount at haccount
    split at haccount
    · next a ha =>
      cases haccount
      simp [Db.accountOf, accountId, hkey, ha, Except.toOption]
    · cases haccount
  have hliving : ∀ i, ((updateWhere (·.id == account.id)
      (fun a : Account => { a with deletedAt := none }) db.accounts).any fun a =>
        a.id == i && a.deletedAt.isNone) → db.living i ∨ i = account.id := by
    intro i hl
    obtain ⟨a, ha, hai⟩ := List.any_eq_true.1 hl
    obtain ⟨a₀, ha₀, rfl⟩ := mem_updateWhere.1 ha
    split at hai
    · next hsame =>
      simp only [Bool.and_eq_true, beq_iff_eq] at hai hsame
      exact .inr (hai.1.symm.trans hsame)
    · exact .inl (List.any_eq_true.2 ⟨a₀, ha₀, hai⟩)
  simp only [Op.adds, hid, Option.toList_some, List.flatMap_cons, List.flatMap_nil, List.append_nil]
  constructor
  · intro hf
    refine ⟨hf.names, hf.groups, hf.masked, fun a ha => ?_, hf.addresses, hf.owners⟩
    obtain ⟨a₀, ha₀, rfl⟩ := mem_updateWhere.1 ha
    have := hf.accounts a₀ ha₀
    split <;> exact this
  · rintro - ⟨k, name⟩ he
    cases k with
    | account =>
      obtain ⟨a, ha, rfl, hl⟩ := mem_takers_account.1 he
      rcases hliving _ hl with hl | hmine
      · exact .inl (mem_takers_account.2 ⟨a, ha, rfl, hl⟩)
      · refine .inr (List.mem_append_left _ (List.mem_map.2 ⟨a, List.mem_filter.2 ⟨ha, ?_⟩, rfl⟩))
        simpa using hmine
    | group =>
      have hrow := mem_takers_group.1 he
      exact .inl (mem_takers_group.2 hrow)
    | forward =>
      have hrow := mem_takers_forward.1 he
      exact .inl (mem_takers_forward.2 hrow)
    | masked =>
      obtain ⟨m, hm, rfl, hd⟩ := mem_takers_masked.1 he
      obtain ⟨hs, ha⟩ := Bool.and_eq_true_iff.1 hd
      obtain ⟨owner, howner, hl⟩ := (Option.any_eq_true _ _).1 ha
      rcases hliving _ hl with hl | rfl
      · exact .inl (mem_takers_masked.2 ⟨m, hm, rfl, Bool.and_eq_true_iff.2
          ⟨hs, (Option.any_eq_true _ _).2 ⟨owner, howner, hl⟩⟩⟩)
      · refine .inr (List.mem_append_right _ (List.mem_map.2 ⟨m, List.mem_filter.2 ⟨hm, ?_⟩, rfl⟩))
        simpa [howner] using hs

variable {account : Int}

theorem refiled_replaceMembers {members : List (String × Bool)}
    (h : replaceMembers x account members db = .ok db') : Refiled db db' [] := by
  obtain ⟨_, -, h⟩ := except_bind_ok h
  obtain ⟨wanted, -, h⟩ := except_bind_ok h
  obtain rfl := Except.ok.inj h
  have hsame : Shrinks db { db with
      sharedMailboxMembers := deleteWhere (·.accountId == account) db.sharedMailboxMembers ++
        wanted.map fun w => ⟨account, w.1, w.2⟩ } := .of_same rfl rfl rfl rfl rfl rfl
  have hgrant : ∀ (db : Db) (g : Int × String),
      SameButIdentities db (grantIdentity x g.1 g.2 (db.displayName account) db) :=
    fun db g => sameButIdentities_grant x g.1 g.2 _ db
  exact ((hsame.refiled []).then (sameButIdentities_revokes _ _)).then (.foldl hgrant _ _)

theorem Shrinks.setShared (account : Int) (shared : Bool) (db : Db) :
    Shrinks db (db.setShared account shared) :=
  .of_same rfl rfl rfl rfl (map_accounts_updateWhere (by intro a; exact ⟨rfl, rfl⟩) _) rfl

theorem refiled_shareAccount {members : List (String × Bool)}
    (h : shareAccount x account members db = .ok db') : Refiled db db' [] :=
  ((Shrinks.setShared account true db).refiled []).trans (refiled_replaceMembers h)

theorem refiled_setSharedMailboxMembers {members : List (String × Bool)}
    (h : setSharedMailboxMembers x login members db = .ok db') : Refiled db db' [] := by
  obtain ⟨id, -, h⟩ := except_bind_ok h
  exact refiled_replaceMembers h

theorem refiled_endSharedMailbox (h : endSharedMailbox x login db = .ok db') :
    Refiled db db' [] := by
  obtain ⟨id, -, h⟩ := except_bind_ok h
  obtain ⟨d, hd, h⟩ := except_bind_ok h
  obtain rfl := Except.ok.inj h
  exact (refiled_replaceMembers hd).trans ((Shrinks.setShared id false d).refiled [])

theorem sameButIdentities_addIdentity (account : Int) (name email : String) (db : Db) :
    SameButIdentities db (db.addIdentity account name email) := ⟨_, _, rfl⟩

theorem refiled_readIdentities (h : readIdentities x account db = .ok db') :
    Refiled db db' [] := by
  unfold readIdentities at h
  split at h
  · obtain rfl := Except.ok.inj h
    exact .refl db []
  · split at h
    · cases h
    · obtain rfl := Except.ok.inj h
      have hstep : ∀ (db : Db) (i : String × String),
          SameButIdentities db (db.addIdentity account i.2 i.1) :=
        fun db i => sameButIdentities_addIdentity account i.2 i.1 db
      exact .of_sameButIdentities (.foldl hstep _ db)

theorem refiled_createIdentity {name email : String}
    (h : createIdentity x account name email db = .ok db') : Refiled db db' [] := by
  obtain ⟨_, -, h⟩ := except_bind_ok h
  obtain ⟨_, -, h⟩ := except_bind_ok h
  obtain rfl := Except.ok.inj h
  exact .of_sameButIdentities (sameButIdentities_addIdentity ..)

theorem refiled_setDomainKind {kind : DomainKind}
    (h : setDomainKind x domain kind db = .ok db') : Refiled db db' [] := by
  obtain ⟨domain, -, h⟩ := except_bind_ok h
  obtain ⟨i, -, h⟩ := except_bind_ok h
  split at h
  · cases h
  · split at h
    · obtain rfl := Except.ok.inj h
      exact .refl db []
    · have haccounts := map_accounts_updateWhere (p := (·.maskedDefault == some i))
        (f := fun a => { a with maskedDefault := none }) (fun _ => ⟨rfl, rfl⟩) db.accounts
      cases kind with
      | masked =>
        obtain ⟨_, -, h⟩ := except_bind_ok h
        obtain rfl := Except.ok.inj h
        exact .of_same rfl rfl rfl rfl haccounts rfl
      | mail =>
        obtain rfl := Except.ok.inj h
        exact .of_same rfl rfl rfl rfl haccounts rfl

theorem refiled_createDomain {name : String} {kind : DomainKind} (h : createDomain x name kind db = .ok db') :
    Refiled db db' [] := by
  obtain ⟨_, -, h⟩ := except_bind_ok h
  obtain ⟨_, -, h⟩ := except_bind_ok h
  obtain rfl := Except.ok.inj h
  exact .of_same rfl rfl rfl rfl rfl rfl

theorem refiled_setCatchAll {login : Option String} (h : setCatchAll x domain login db = .ok db') :
    Refiled db db' [] := by
  iterate 5 obtain ⟨_, -, h⟩ := except_bind_ok h
  obtain rfl := Except.ok.inj h
  exact .of_same rfl rfl rfl rfl rfl rfl

theorem refiled_setDomainSelfService {on : Bool} (h : setDomainSelfService x domain on db = .ok db') :
    Refiled db db' [] := by
  iterate 3 obtain ⟨_, -, h⟩ := except_bind_ok h
  obtain rfl := Except.ok.inj h
  exact .of_same rfl rfl rfl rfl rfl rfl

theorem refiled_setDomainMaskedPolicy {policy : DomainMaskedPolicy}
    (h : setDomainMaskedPolicy x domain policy db = .ok db') :
    Refiled db db' [] := by
  iterate 5 obtain ⟨_, -, h⟩ := except_bind_ok h
  obtain rfl := Except.ok.inj h
  exact .of_same rfl rfl rfl rfl rfl rfl

theorem refiled_setAccountMaskedPolicy {policy : AccountMaskedPolicy}
    (h : setAccountMaskedPolicy x account policy db = .ok db') :
    Refiled db db' [] := by
  iterate 3 obtain ⟨_, -, h⟩ := except_bind_ok h
  obtain rfl := Except.ok.inj h
  exact .of_same rfl rfl rfl rfl
    (map_accounts_updateWhere (by intro a; exact ⟨rfl, rfl⟩) _) rfl

theorem refiled_setAccountDisabled {disabled : Bool}
    (h : setAccountDisabled x login disabled db = .ok db') :
    Refiled db db' [] := by
  obtain ⟨_, -, h⟩ := except_bind_ok h
  obtain ⟨_, -, h⟩ := except_bind_ok h
  obtain rfl := Except.ok.inj h
  exact .of_same rfl rfl rfl rfl
    (map_accounts_updateWhere (by intro a; exact ⟨rfl, rfl⟩) _) rfl

theorem refiled_setSendAsDomains {domains : List String}
    (h : setSendAsDomains x account domains db = .ok db') :
    Refiled db db' [] := by
  iterate 3 obtain ⟨_, -, h⟩ := except_bind_ok h
  obtain rfl := Except.ok.inj h
  exact .of_same rfl rfl rfl rfl rfl rfl

/-- **One transaction**, whichever it is: the tables stay in order, and nothing takes mail that did
not, but for what the event adds. -/
theorem refiled_step {op : Op} (h : op.call x db = .ok db') : Refiled db db' (op.adds x db) := by
  cases op with
  | createDomain name kind => exact refiled_createDomain h
  | deleteDomain name => exact refiled_deleteDomain h
  | setCatchAll domain login => exact refiled_setCatchAll h
  | setDomainSelfService domain on => exact refiled_setDomainSelfService h
  | setDomainKind domain kind => exact refiled_setDomainKind h
  | setDomainMaskedPolicy domain policy => exact refiled_setDomainMaskedPolicy h
  | setAccountMaskedPolicy account policy => exact refiled_setAccountMaskedPolicy h
  | createAccount new => exact refiled_createAccount h
  | setAccountDisabled login disabled => exact refiled_setAccountDisabled h
  | trashAccount now login => exact refiled_trashAccount h
  | restoreAccount login => exact refiled_restoreAccount h
  | deleteAccount login => exact refiled_deleteAccount h
  | shareAccount account members => exact refiled_shareAccount h
  | setSharedMailboxMembers login members => exact refiled_setSharedMailboxMembers h
  | endSharedMailbox login => exact refiled_endSharedMailbox h
  | addAlias now address login => exact refiled_addAlias h
  | removeAlias address => exact refiled_removeAlias h
  | createOwnAlias now account address => exact refiled_createOwnAlias h
  | deleteOwnAlias now account address => exact refiled_deleteOwnAlias h
  | createGroup now new => exact refiled_createGroup h
  | updateGroup address update => exact refiled_updateGroup h
  | deleteGroup address => exact refiled_deleteGroup h
  | setForwardAddress now address targets note => exact refiled_setForwardAddress h
  | removeForwardAddress address => exact refiled_removeForwardAddress h
  | createMaskedAddress now picks account new => exact refiled_createMaskedAddress h
  | updateMaskedAddress account id update => exact refiled_updateMaskedAddress h
  | noteMaskedMessage now id =>
    obtain rfl := Except.ok.inj h
    exact refiled_noteMaskedMessage now id db
  | retirePendingMaskedAddresses now =>
    obtain rfl := Except.ok.inj h
    exact refiled_retirePendingMaskedAddresses now db
  | setSendAsDomains account domains => exact refiled_setSendAsDomains h
  | readIdentities account => exact refiled_readIdentities h
  | createIdentity account name email => exact refiled_createIdentity h

/-! ## 4. Whole runs -/

/-- **The step puts no row across another**: a name with a tag is not filed for an account while a
group stands at its base, nor for a forwarding address while anything else does, nor the other way
round. -/
def Op.Clear (x : Text) (db : Db) (op : Op) : Prop :=
  ∀ e ∈ op.adds x db, ∀ e' ∈ db.takers ++ op.adds x db, ¬Crosses e e' ∧ ¬Crosses e' e

instance (x : Text) (db : Db) (op : Op) : Decidable (op.Clear x db) :=
  inferInstanceAs (Decidable (∀ e ∈ _, ∀ e' ∈ _, _))

theorem Filed.empty : Filed {} :=
  ⟨List.nodup_nil, by simp, by simp, by simp, by simp, by simp⟩

theorem straight_step {op : Op} (hf : Filed db) (hs : Straight db) (hc : op.Clear x db)
    (h : op.call x db = .ok db') : Straight db' := by
  have hnew := (refiled_step h).takers hf
  intro e he e' he'
  rcases hnew e he with he | he <;> rcases hnew e' he' with he' | he'
  · exact hs e he e' he'
  · exact (hc e' he' e (List.mem_append_left _ he)).2
  · exact (hc e he e' (List.mem_append_left _ he')).1
  · exact (hc e he e' (List.mem_append_right _ he')).1

/-- No name is ever in two tables. -/
theorem filed_run {ops : List Op} (h : Trace.run (step x) {} ops = some db) : Filed db :=
  Trace.run_invariant' (fun _ _ _ hf hstep => (refiled_step (step_eq_some.1 hstep)).filed hf)
    Filed.empty h

/-- **An address belongs to one.**  After any run no name stands in two of the tables of account
addresses, groups, forwarding addresses and masked addresses; and if no step of the run put a row
across another, at most one of `resolve`, `group_delivery` and `forward_address_targets` answers for
any recipient. -/
theorem an_address_belongs_to_one {ops : List Op} (h : Trace.run (step x) {} ops = some db) :
    db.names.Nodup ∧
      (Trace.Along (step x) (fun db op => op.Clear x db) {} ops → ∀ address, ways x db address ≤ 1) := by
  refine ⟨(filed_run h).names, fun halong => ?_⟩
  have hboth : Filed db ∧ Straight db := by
    refine Trace.run_invariant (P := fun db => Filed db ∧ Straight db) ?_
      ⟨Filed.empty, by simp [Straight, Db.takers]⟩ halong h
    rintro db op db' ⟨hf, hs⟩ hc hstep
    have hcall := step_eq_some.1 hstep
    exact ⟨(refiled_step hcall).filed hf, straight_step hf hs hc hcall⟩
  exact fun address => ways_le_one hboth.1 hboth.2 address

/-- A domain with a person, a group and a forwarding address on it. -/
def smallOffice : List Op :=
  [.createDomain "Example.org" .mail,
   .createAccount { address := "mini@example.org", role := .admin },
   .createGroup 5 { address := "info@example.org", members := ["mini@example.org"] },
   .setForwardAddress 6 "kasse@example.org" ["verein@example.net"] "",
   .addAlias 7 "mini+shop@example.org" "mini@example.org"]

theorem small_office_has_one_way : ∃ db, Trace.run (step asciiText) {} smallOffice = some db ∧
    db.names.length = 4 ∧ ∀ address, ways asciiText db address ≤ 1 := by
  have hsome : (Trace.run (step asciiText) {} smallOffice).any (·.names.length == 4) := by
    decide +kernel
  obtain ⟨db, hdb, hlen⟩ := (Option.any_eq_true _ _).1 hsome
  exact ⟨db, hdb, by simpa using hlen, (an_address_belongs_to_one hdb).2 (by decide +kernel)⟩

/-- An admin gives Mini the alias `info+x@` while `info@` is a group: mail for it is Mini's for one
door, and the group's for the other. -/
theorem a_tagged_alias_beside_a_group : ¬∀ (x : Text) (ops : List Op) (db : Db),
    Trace.run (step x) {} ops = some db → ∀ address, ways x db address ≤ 1 := by
  intro hall
  have hbad : (Trace.run (step asciiText) {}
      (smallOffice ++ [.addAlias 8 "info+x@example.org" "mini@example.org"])).any fun db =>
        resolve asciiText db "info+x@example.org" == some 1 &&
          (groupDelivery asciiText db "info+x@example.org").any (·.members == [1]) &&
          ways asciiText db "info+x@example.org" == 2 := by
    decide +kernel
  obtain ⟨db, hdb, hways⟩ := (Option.any_eq_true _ _).1 hbad
  have := hall asciiText _ db hdb "info+x@example.org"
  simp only [Bool.and_eq_true, beq_iff_eq] at hways
  omega

end UwuMail.Directory
