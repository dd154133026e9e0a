/-
# Someone else's account over JMAP

`sharing.rs`: each person who shares something is an account of their own, and the methods work
there within the rights they gave.  `SharedView` is what the caller may see and do; it is read from
the store before each call.  §2 says where the rights come from.
-/
import UwuMail.Store.Acl

namespace UwuMail.Jmap

open Store

/-! ## 1. The view -/

/-- What the logged-in account may see and do in someone else's account: the rights per mailbox. -/
structure SharedView where
  rights : SortedMap Int String

def visibleRights (rights : String) : Bool := rights.toList.contains 'l' || rights.toList.contains 'r'

/-- `shared_rights`: the rights of `grantee` per mailbox of `owner` shared with them. -/
def sharedRights (db : Db) (grantee owner : Int) : SortedMap Int String :=
  ((mailboxesSharedWith db grantee).filter fun m => m.ownerId == owner).foldl
    (fun rights m => rights.insert m.mailbox.id m.rights) SortedMap.empty

/-- What `enter` puts in place of the caller's own account. -/
def sharedView (db : Db) (me owner : Int) : SharedView := ⟨sharedRights db me owner⟩

namespace SharedView

/-- All mailboxes shown in the account, sorted. -/
def visibleIds (view : SharedView) : List Int :=
  (view.rights.entries.filter fun e => visibleRights e.2).map (·.1)

end SharedView

/-! ## 2. Grants -/

section Grants

variable {db : Db} {me owner b : Int} {rights : String}

/-- A map that is filled from a list has its entries from there. -/
theorem get?_foldl_insert {α : Type} {key : α → Int} {value : α → String} {l : List α}
    {map : SortedMap Int String}
    (h : (l.foldl (fun map x => map.insert (key x) (value x)) map).get? b = some rights) :
    map.get? b = some rights ∨ ∃ x ∈ l, key x = b ∧ value x = rights := by
  induction l generalizing map with
  | nil => exact .inl h
  | cons x l ih =>
    rcases ih h with h | ⟨y, hy, hkey⟩
    · rw [SortedMap.get?_insert] at h
      split at h
      next hb => exact .inr ⟨x, List.mem_cons_self, hb.symm, Option.some.inj h⟩
      next => exact .inl h
    · exact .inr ⟨y, List.mem_cons_of_mem _ hy, hkey⟩

theorem sharedRow_eq_some {g : AclRow} {row : SharedMailbox × MailboxRow}
    (h : db.sharedRow g = some row) : db.mailbox g.mailboxId = some row.2 ∧
      (∃ x, db.living g.ownerId = some x ∧ row.1.ownerId = x.id) ∧
      (∃ x, db.living g.granteeId = some x) ∧ row.1.mailbox.id = row.2.id ∧ row.1.rights = g.rights := by
  simp only [Db.sharedRow, Option.bind_eq_bind, Option.bind_eq_some_iff, Option.pure_def,
    Option.some.injEq] at h
  obtain ⟨q, hq, x, hx, y, hy, rfl⟩ := h
  exact ⟨hq, ⟨x, hx, rfl⟩, ⟨y, hy⟩, rfl, rfl⟩

/-- Who has rights in a mailbox has been granted them. -/
theorem granted_of_sharedRights (h : (sharedRights db me owner).get? b = some rights) :
    (∃ g ∈ db.grants, g.granteeId = me ∧ g.ownerId = owner ∧ g.mailboxId = b ∧ g.rights = rights) ∧
      (∃ q ∈ db.mailboxes, q.id = b) ∧ ∃ x ∈ db.accounts, x.id = owner := by
  rcases get?_foldl_insert h with h | ⟨shared, hshared, hb, hrights⟩
  · cases h
  obtain ⟨hshared, howner⟩ := List.mem_filter.1 hshared
  obtain ⟨row, hrow, rfl⟩ := List.mem_map.1 hshared
  rw [List.mem_insertionSort] at hrow
  obtain ⟨g, hg, hrow⟩ := List.mem_filterMap.1 hrow
  obtain ⟨hg, hgrantee⟩ := List.mem_filter.1 hg
  obtain ⟨hmailbox, ⟨x, hx, hxid⟩, -, hid, hr⟩ := sharedRow_eq_some hrow
  have hq : row.2.id = g.mailboxId := by simpa using List.find?_some hmailbox
  have hxo : x.id = g.ownerId ∧ x.deletedAt.isNone = true := by simpa using List.find?_some hx
  have howner' : row.1.ownerId = owner := by simpa using howner
  refine ⟨⟨g, hg, by simpa using hgrantee, ?_, ?_, hr.symm.trans hrights⟩,
    ⟨row.2, List.mem_of_find?_eq_some hmailbox, hid.symm.trans hb⟩,
    ⟨x, List.mem_of_find?_eq_some hx, hxid.symm.trans howner'⟩⟩
  · rw [← hxo.1, ← hxid, howner']
  · rw [← hq, ← hid, hb]

/-- What is visible is shared. -/
theorem shared_of_visible (h : b ∈ (sharedView db me owner).visibleIds) :
    db.isShared owner b = true ∧ (∃ q ∈ db.mailboxes, q.id = b) ∧ ∃ x ∈ db.accounts, x.id = owner := by
  obtain ⟨⟨b', rights⟩, hentry, rfl⟩ := List.mem_map.1 h
  have hget := SortedMap.mem_entries.1 (List.mem_filter.1 hentry).1
  obtain ⟨⟨g, hg, -, howner, hb, -⟩, hq, hx⟩ := granted_of_sharedRights hget
  refine ⟨?_, hq, hx⟩
  rw [Db.isShared, Bool.or_eq_true, List.any_eq_true, List.any_eq_true]
  rcases List.mem_append.1 hg with hg | hg
  · obtain ⟨member, hmember, hg⟩ := List.mem_flatMap.1 hg
    split at hg
    · obtain ⟨q, -, rfl⟩ := List.mem_map.1 hg
      exact .inr ⟨member, hmember, by simpa using howner⟩
    · cases hg
  · exact .inl ⟨g, (List.mem_filter.1 hg).1, by simpa using hb⟩

end Grants

end UwuMail.Jmap
