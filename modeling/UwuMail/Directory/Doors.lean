/-
# Which door takes the mail

Three questions decide the way of a message for one of our addresses: `resolve` names the account it
goes to, `group_delivery` the group, `forward_address_targets` where a forwarding address passes it
on.  The receiving door and the sending door ask them in different orders.

THE RESULT.  No name stands in two of the four tables that hold addresses, whatever was done to the
directory (`Filed`).  That is not enough for one answer per recipient, because a `+tag` falls back
to the base of an address, and a name with a tag may be taken as an address of its own.  `Crosses`
says which two rows compete for a recipient, and `ways_le_one` that no recipient has two answers
where no two rows do.

Every transaction only ever adds one taker to those there are, or brings back an account's
(`takers_of_step`), so a run no step of which puts a new taker across another keeps to one answer.
-/
import UwuMail.Directory.Ops

namespace UwuMail.Directory

open Store (StoreError)
open Table

/-! ## 1. The doors -/

/-- The account that has this very name, when it is not in the trash. -/
def Db.addressAt (db : Db) (name : Name) : Option Int :=
  (db.addresses.find? fun a => a.key == name && db.living a.accountId).map (·.accountId)

def Db.groupAt (db : Db) (name : Name) : Option Int :=
  (db.groups.find? (·.key == name)).map (·.id)

def Db.forwardAt (db : Db) (name : Name) : Option (List String) :=
  (db.forwardAddresses.find? (·.key == name)).map (·.targets)

/-- `groups::find`: the address itself, or its base without a `+tag`. -/
def findGroup (db : Db) (name : Name) : Option Int :=
  (db.groupAt name).or
    (if tagged name.1 then db.groupAt (baseLocalPart name.1, name.2) else none)

/-- `forward_targets`: the address itself, or its base without a `+tag` unless a mailbox has the
full address. -/
def forwardTargets (db : Db) (name : Name) : Option (List String) :=
  (db.forwardAt name).or
    (if tagged name.1 ∧ db.addresses.any (·.key == name) = false then
      db.forwardAt (baseLocalPart name.1, name.2)
    else none)

/-- The first admin who is neither disabled nor in the trash: postmaster and abuse. -/
def Db.firstAdmin (db : Db) : Option Int :=
  ((db.accounts.filter (·.activeAdmin)).map (·.id)).min?

/-- The account whose address this is: the address itself, or its base without a `+tag`. -/
def findAccount (db : Db) (name : Name) : Option Int :=
  (db.addressAt name).or
    (if tagged name.1 then db.addressAt (baseLocalPart name.1, name.2) else none)

/-- `resolve`, once the domain is found. -/
def resolveName (db : Db) (d : Domain) (localPart : String) : Option Int :=
  match findAccount db (localPart, d.id) with
  | some account => some account
  | none =>
    -- A deleted masked address takes nothing, and no catch-all takes its mail either.
    match findMasked db (localPart, d.id) with
    | some masked => masked.deliversTo
    | none =>
      if (findGroup db (localPart, d.id)).isSome then none
      else if (forwardTargets db (localPart, d.id)).isSome then none
      else if (d.catchAll.filter db.living).isSome then d.catchAll.filter db.living
      else if baseLocalPart localPart = "postmaster" ∨ baseLocalPart localPart = "abuse" then
        db.firstAdmin
      else none

/-- What a recipient address names here: a domain of ours, and a local part on it. -/
def Db.recipient (x : Text) (db : Db) (address : String) : Option (Domain × String) :=
  match normalizeAddress x address with
  | .error _ => none
  | .ok (localPart, domain) =>
    (db.domains.find? (·.name == domain)).map fun d => (d, localPart)

/-- `resolve`: the account an address delivers to, following sub-addresses and catch-alls. -/
def resolve (x : Text) (db : Db) (address : String) : Option Int :=
  (db.recipient x address).bind fun (d, localPart) => resolveName db d localPart

structure GroupDelivery where
  id : Int
  /-- The group's own address, without a `+tag`. -/
  address : String
  whoMaySend : WhoMaySend
  /-- Accounts of the members that are not in the trash. -/
  members : List Int

/-- `group_delivery`: the group that takes mail for an address, with the members to deliver to. -/
def groupDelivery (x : Text) (db : Db) (address : String) : Option GroupDelivery :=
  (db.recipient x address).bind fun (d, localPart) =>
    (findGroup db (localPart, d.id)).bind fun id =>
      (db.groups.find? (·.id == id)).map fun g =>
        { id, address := written g.localPart d.name, whoMaySend := g.whoMaySend,
          members := ((db.groupMemberIds id).filter db.living).insertionSort (· ≤ ·) }

/-- `forward_address_targets`: where mail goes on to, each target with the account when it is hosted
here. -/
def forwardAddressTargets (x : Text) (db : Db) (address : String) :
    Option (List (String × Option Int)) :=
  (db.recipient x address).bind fun (d, localPart) =>
    (forwardTargets db (localPart, d.id)).map fun targets =>
      targets.map fun target => (target, resolve x db target)

/-- How many of the three have an answer for a recipient. -/
def ways (x : Text) (db : Db) (address : String) : Nat :=
  (resolve x db address).isSome.toNat + (groupDelivery x db address).isSome.toNat +
    (forwardAddressTargets x db address).isSome.toNat

/-! ## 2. The tables, and who takes mail -/

/-- **What holds of the tables in every state**: no name is in two of them, and only the addresses
of accounts and forwarding addresses carry a tag. -/
structure Filed (db : Db) : Prop where
  names : db.names.Nodup
  groups : ∀ g ∈ db.groups, '+' ∉ g.localPart.toList
  masked : ∀ m ∈ db.maskedAddresses, '+' ∉ m.localPart.toList
  accounts : ∀ a ∈ db.accounts, a.id ≤ db.accountHighWater
  addresses : ∀ a ∈ db.addresses, a.accountId ≤ db.accountHighWater
  owners : ∀ m ∈ db.maskedAddresses, ∀ id ∈ m.accountId, id ≤ db.accountHighWater

/-- The four kinds of rows that take mail for a name. -/
inductive Kind
  | account
  | group
  | forward
  | masked
  deriving DecidableEq

/-- A row that takes mail, and for which name. -/
abbrev Taker := Kind × Name

/-- Delivers to its owner: not deleted, and the owner is not in the trash. -/
def Db.delivers (db : Db) (m : MaskedAddress) : Bool :=
  m.state != .deleted && m.accountId.any db.living

/-- Every row that takes mail now. -/
def Db.takers (db : Db) : List Taker :=
  ((db.addresses.filter fun a => db.living a.accountId).map fun a => (.account, a.key)) ++
  (db.groups.map fun g => (.group, g.key)) ++
  (db.forwardAddresses.map fun f => (.forward, f.key)) ++
  ((db.maskedAddresses.filter db.delivers).map fun m => (.masked, m.key))

/-- Two rows that compete for the mail of `e`'s name: it has a tag, `e'` stands at its base, and `e`
is an account's address where `e'` is a group, or a forwarding address where `e'` is not. -/
def Crosses (e e' : Taker) : Prop :=
  tagged e.2.1 ∧ e'.2 = (baseLocalPart e.2.1, e.2.2) ∧
    (e.1 = .account ∧ e'.1 = .group ∨ e.1 = .forward ∧ e'.1 ≠ .forward)

instance (e e' : Taker) : Decidable (Crosses e e') := inferInstanceAs (Decidable (_ ∧ _ ∧ _))

/-- No two rows compete. -/
def Straight (db : Db) : Prop := ∀ e ∈ db.takers, ∀ e' ∈ db.takers, ¬Crosses e e'

variable {x : Text} {db db' : Db} {name : Name} {localPart : String}

theorem mem_takers_account :
    (Kind.account, name) ∈ db.takers ↔ ∃ a ∈ db.addresses, a.key = name ∧ db.living a.accountId := by
  simp [Db.takers]
  tauto

theorem mem_takers_group : (Kind.group, name) ∈ db.takers ↔ ∃ g ∈ db.groups, g.key = name := by
  simp [Db.takers]

theorem mem_takers_forward :
    (Kind.forward, name) ∈ db.takers ↔ ∃ f ∈ db.forwardAddresses, f.key = name := by
  simp [Db.takers]

theorem mem_takers_masked :
    (Kind.masked, name) ∈ db.takers ↔ ∃ m ∈ db.maskedAddresses, m.key = name ∧ db.delivers m := by
  simp [Db.takers]
  tauto

/-- A name stands in one table only, so one kind of row takes its mail. -/
theorem Filed.kind_eq (hf : Filed db) {k k' : Kind} (h : (k, name) ∈ db.takers)
    (h' : (k', name) ∈ db.takers) : k = k' := by
  have hn := hf.names
  simp only [Db.names, List.nodup_append, List.mem_append, List.mem_map] at hn
  obtain ⟨⟨⟨-, -, hag⟩, -, hagf⟩, -, hagfm⟩ := hn
  cases k <;> cases k' <;> simp only [mem_takers_account, mem_takers_group, mem_takers_forward,
    mem_takers_masked] at h h' <;> first | rfl | (exfalso; grind)

/-- Groups and masked addresses have no tag. -/
theorem Filed.tagged_kind (hf : Filed db) {k : Kind} {d : Int}
    (h : (k, (localPart, d)) ∈ db.takers) (ht : tagged localPart) : k = .account ∨ k = .forward := by
  have hplus := plus_mem_of_tagged ht
  cases k with
  | account => exact .inl rfl
  | forward => exact .inr rfl
  | group =>
    obtain ⟨g, hg, hk⟩ := mem_takers_group.1 h
    obtain rfl : g.localPart = localPart := congrArg Prod.fst hk
    exact absurd hplus (hf.groups g hg)
  | masked =>
    obtain ⟨m, hm, hk, -⟩ := mem_takers_masked.1 h
    obtain rfl : m.localPart = localPart := congrArg Prod.fst hk
    exact absurd hplus (hf.masked m hm)

/-! ## 3. One answer -/

/-- Mail for the name reaches a row of this kind: it has the name itself, or the base of it, unless
it is a forwarding address and a mailbox has the full name. -/
def Reaches (db : Db) (k : Kind) (localPart : String) (d : Int) : Prop :=
  (k, (localPart, d)) ∈ db.takers ∨
    tagged localPart ∧ (k, (baseLocalPart localPart, d)) ∈ db.takers ∧
      (k = .forward → ∀ a ∈ db.addresses, a.key ≠ (localPart, d))

/-- Which of the three doors a kind of row is behind. -/
def Kind.door : Kind → Nat
  | .account | .masked => 0
  | .group => 1
  | .forward => 2

/-- The row at the name itself and the row at its base are behind one door. -/
theorem door_eq_of_base (hf : Filed db) (hs : Straight db) {k k' : Kind} {d : Int}
    (ht : tagged localPart) (h : (k, (localPart, d)) ∈ db.takers)
    (h' : (k', (baseLocalPart localPart, d)) ∈ db.takers)
    (hfw : k' = .forward → ∀ a ∈ db.addresses, a.key ≠ (localPart, d)) : k.door = k'.door := by
  have hno := hs _ h _ h'
  simp only [Crosses, ht, true_and] at hno
  rcases hf.tagged_kind h ht with rfl | rfl
  · cases k' with
    | account => rfl
    | masked => rfl
    | group => exact absurd (.inl ⟨rfl, rfl⟩) hno
    | forward =>
      obtain ⟨a, ha, hk, -⟩ := mem_takers_account.1 h
      exact absurd hk (hfw rfl a ha)
  · cases k' with
    | forward => rfl
    | account => exact absurd (.inr ⟨rfl, by decide⟩) hno
    | group => exact absurd (.inr ⟨rfl, by decide⟩) hno
    | masked => exact absurd (.inr ⟨rfl, by decide⟩) hno

/-- **Whatever rows the mail for a name can reach, they are behind one door.** -/
theorem door_eq (hf : Filed db) (hs : Straight db) {k k' : Kind} {d : Int}
    (h : Reaches db k localPart d) (h' : Reaches db k' localPart d) : k.door = k'.door := by
  rcases h with h | ⟨ht, h, hfw⟩ <;> rcases h' with h' | ⟨ht', h', hfw'⟩
  · rw [hf.kind_eq h h']
  · exact door_eq_of_base hf hs ht' h h' hfw'
  · exact (door_eq_of_base hf hs ht h' h hfw).symm
  · rw [hf.kind_eq h h']

theorem taker_of_addressAt (h : (db.addressAt name).isSome) : (Kind.account, name) ∈ db.takers := by
  simp only [Db.addressAt, Option.isSome_map, List.find?_isSome, Bool.and_eq_true, beq_iff_eq] at h
  exact mem_takers_account.2 h

theorem taker_of_groupAt (h : (db.groupAt name).isSome) : (Kind.group, name) ∈ db.takers := by
  simp only [Db.groupAt, Option.isSome_map, List.find?_isSome, beq_iff_eq] at h
  exact mem_takers_group.2 h

theorem taker_of_forwardAt (h : (db.forwardAt name).isSome) : (Kind.forward, name) ∈ db.takers := by
  simp only [Db.forwardAt, Option.isSome_map, List.find?_isSome, beq_iff_eq] at h
  exact mem_takers_forward.2 h

theorem taker_of_maskedAt {m : MaskedDelivery} (h : db.maskedAt name = some m)
    (hd : m.deliversTo.isSome) : (Kind.masked, name) ∈ db.takers := by
  obtain ⟨row, hrow, rfl⟩ := Option.map_eq_some_iff.1 h
  have hkey := List.find?_some hrow
  refine mem_takers_masked.2 ⟨row, List.mem_of_find?_eq_some hrow, by simpa using hkey, ?_⟩
  unfold MaskedDelivery.deliversTo at hd
  split at hd
  · cases hd
  · next hstate =>
    cases hacc : row.accountId with
    | none => simp [hacc] at hd
    | some id =>
      have hliving : db.living id := by
        rw [hacc, Option.filter_some] at hd
        by_contra hno
        simp [hno] at hd
      simp [Db.delivers, hacc, hliving, hstate]

theorem reaches_of_findGroup {d : Int} (h : (findGroup db (localPart, d)).isSome) :
    Reaches db .group localPart d := by
  simp only [findGroup, Option.isSome_or, Bool.or_eq_true] at h
  rcases h with h | h
  · exact .inl (taker_of_groupAt h)
  · split at h
    · next ht => exact .inr ⟨ht, taker_of_groupAt h, by simp⟩
    · cases h

theorem reaches_of_forwardTargets {d : Int} (h : (forwardTargets db (localPart, d)).isSome) :
    Reaches db .forward localPart d := by
  simp only [forwardTargets, Option.isSome_or, Bool.or_eq_true] at h
  rcases h with h | h
  · exact .inl (taker_of_forwardAt h)
  · split at h
    · next ht =>
      refine .inr ⟨ht.1, taker_of_forwardAt h, fun _ a ha hk => ?_⟩
      have := List.any_eq_false.1 ht.2 a ha
      simp [hk] at this
    · cases h

theorem reaches_of_findMasked {d : Int} {m : MaskedDelivery}
    (h : findMasked db (localPart, d) = some m) (hd : m.deliversTo.isSome) :
    Reaches db .masked localPart d := by
  rcases Option.or_eq_some_iff.1 h with h | ⟨-, h⟩
  · exact .inl (taker_of_maskedAt h hd)
  · split at h
    · next ht => exact .inr ⟨ht, taker_of_maskedAt h hd, by simp⟩
    · cases h

theorem reaches_of_findAccount {d : Int} (h : (findAccount db (localPart, d)).isSome) :
    Reaches db .account localPart d := by
  simp only [findAccount, Option.isSome_or, Bool.or_eq_true] at h
  rcases h with h | h
  · exact .inl (taker_of_addressAt h)
  · split at h
    · next ht => exact .inr ⟨ht, taker_of_addressAt h, by simp⟩
    · cases h

/-- An account answers because of a row of its own, or because neither a group nor a forwarding
address does. -/
theorem reaches_of_resolveName {d : Domain} (h : (resolveName db d localPart).isSome) :
    Reaches db .account localPart d.id ∨ Reaches db .masked localPart d.id ∨
      (findGroup db (localPart, d.id)).isSome = false ∧
        (forwardTargets db (localPart, d.id)).isSome = false := by
  unfold resolveName at h
  split at h
  · next ha => exact .inl (reaches_of_findAccount (by simp [ha]))
  · split at h
    · next m hm => exact .inr (.inl (reaches_of_findMasked hm h))
    · split at h
      · cases h
      · next hg =>
        split at h
        · cases h
        · next hfw => exact .inr (Or.inr ⟨by simpa using hg, by simpa using hfw⟩)

/-- **No recipient has two answers** where no two rows compete. -/
theorem ways_le_one (hf : Filed db) (hs : Straight db) (address : String) :
    ways x db address ≤ 1 := by
  unfold ways resolve groupDelivery forwardAddressTargets
  cases db.recipient x address with
  | none => simp
  | some r =>
    obtain ⟨d, localPart⟩ := r
    have hgroup : ∀ {α : Type} (f : Int → Option α),
        ((findGroup db (localPart, d.id)).bind f).isSome → Reaches db .group localPart d.id := by
      intro α f h
      refine reaches_of_findGroup ?_
      cases hg : findGroup db (localPart, d.id) <;> simp_all
    have hforward : ∀ {α : Type} (f : List String → α),
        ((forwardTargets db (localPart, d.id)).map f).isSome → Reaches db .forward localPart d.id := by
      intro α f h
      exact reaches_of_forwardTargets (by simpa using h)
    simp only [Option.bind_some]
    have hgf : ∀ (h : Reaches db .group localPart d.id) (h' : Reaches db .forward localPart d.id),
        False := fun h h' => by simpa [Kind.door] using door_eq hf hs h h'
    generalize hG : ((findGroup db (localPart, d.id)).bind _).isSome = G
    generalize hF : ((forwardTargets db (localPart, d.id)).map _).isSome = F
    generalize hR : (resolveName db d localPart).isSome = R
    cases G with
    | false =>
      cases F with
      | false => cases R <;> simp
      | true =>
        cases R with
        | false => simp
        | true =>
          have hfr := hforward _ hF
          rcases reaches_of_resolveName hR with h | h | ⟨-, h⟩
          · exact absurd (door_eq hf hs h hfr) (by decide)
          · exact absurd (door_eq hf hs h hfr) (by decide)
          · simp [h] at hF
    | true =>
      have hgr := hgroup _ hG
      cases F with
      | true => exact absurd (hforward _ hF) fun h => hgf hgr h
      | false =>
        cases R with
        | false => simp
        | true =>
          rcases reaches_of_resolveName hR with h | h | ⟨h, -⟩
          · exact absurd (door_eq hf hs h hgr) (by decide)
          · exact absurd (door_eq hf hs h hgr) (by decide)
          · cases hfg : findGroup db (localPart, d.id) <;> simp_all

end UwuMail.Directory
