/-
# The default calendar and the default address book

`one_default_when` is the law: once the collections were listed, there is exactly one default
calendar and one default address book, and neither a feed nor the birthdays calendar is the default.
It fails in two ways (`one_default_fails`).  Subscribing takes the birthdays calendar for one of the
account's own and makes none, so that the feed becomes the default; and deleting the default
calendar while only feeds remain leaves no successor, and listing makes no calendar because a feed
counts as one.  `Plain` rules both out.

`Fit` says that at most one collection of a kind is the default and that it may be, `Served` that
there is one where there must be; `Inv.call` keeps both through every transaction.
-/
import UwuMail.Dav.Collections
import UwuMail.Dav.Sync

namespace UwuMail.Dav.Collections

open Table Store
open Tx (except_bind_ok)

/-! ## 1. The law -/

/-- Both kinds were listed, in one order or the other. -/
def Listed (account : Int) (w w' : World) : Prop :=
  ∃ kind kind' fresh fresh' now now' w₁, kind ≠ kind' ∧ davCollections account kind fresh now w = .ok w₁ ∧
    davCollections account kind' fresh' now' w₁ = .ok w'

/-- **Exactly one default** of each kind, which no feed and no card fills. -/
structure OneDefault (account : Int) (w : World) : Prop where
  one : ∀ kind, ∃! c, c ∈ w.db.collections ∧ ofKind account kind c = true ∧ c.isDefault = true
  own : ∀ c ∈ w.db.collections, ofKind account .calendar c = true → c.isDefault = true →
    c.subscribed = false ∧ c.birthdays = false

/-- **When the default stays in place.**  A feed is subscribed only by an account that has a
calendar other than the birthdays one, or none at all; and the default calendar is deleted only
where one that may follow it remains, or nothing but the birthdays calendar. -/
def Plain (w : World) (e : Event) : Prop :=
  match e with
  | .subscribe account .. => w.db.collections.any (ofKind account .calendar) = true →
      ∃ c ∈ w.db.collections, ofKind account .calendar c = true ∧ c.birthdays = false
  | .destroyCalendar account id _ | .delete account id =>
      ∀ c ∈ w.db.collections, c.id = id → ofKind account .calendar c = true → c.isDefault = true →
        (∃ d ∈ w.db.collections, d.id ≠ id ∧ ofKind account .calendar d = true ∧ d.subscribed = false ∧
          d.birthdays = false) ∨
        ∀ d ∈ w.db.collections, d.id ≠ id → ofKind account .calendar d = true → d.birthdays = true
  | _ => True

instance (w : World) (e : Event) : Decidable (Plain w e) := by
  unfold Plain
  split <;> infer_instance

/-! ## 2. One default at most, and one where there must be one -/

/-- At most one collection of an account and a kind is the default, and it is one that may be. -/
structure Fit (t : List DavCollection) : Prop where
  unique : UniqueKey DavCollection.id t
  single : ∀ c ∈ t, ∀ d ∈ t, c.isDefault = true → d.isDefault = true →
    ofKind c.accountId c.kind d = true → c = d
  own : ∀ c ∈ t, c.isDefault = true → c.subscribed = false ∧ c.birthdays = false
  calendars : ∀ c ∈ t, c.subscribed = true ∨ c.birthdays = true → c.kind = .calendar

/-- Who has a collection of a kind other than the birthdays calendar has a default one. -/
def Served (t : List DavCollection) (account : Int) (kind : DavKind) : Prop :=
  (∃ c ∈ t, ofKind account kind c = true ∧ c.birthdays = false) →
    ∃ d ∈ t, ofKind account kind d = true ∧ d.isDefault = true

variable {c : DavCollection}

@[simp] theorem ofKind_iff {account : Int} {kind : DavKind} :
    ofKind account kind c = true ↔ c.accountId = account ∧ c.kind = kind := by
  simp [ofKind]

variable {c₀ : DavCollection} {row : DavCollection}

section Lists

variable {t : List DavCollection} {account : Int} {kind : DavKind}

theorem Fit.nil : Fit [] := by
  constructor <;> simp [UniqueKey]

/-- A new collection: it is the default only where no other is and it may be. -/
theorem Fit.append (h : Fit t) (hid : ∀ c ∈ t, c.id ≠ row.id)
    (hdefault : row.isDefault = true → row.subscribed = false ∧ row.birthdays = false ∧
      ∀ c ∈ t, ofKind row.accountId row.kind c = true → c.isDefault = false)
    (hcalendar : row.subscribed = true ∨ row.birthdays = true → row.kind = .calendar) :
    Fit (t ++ [row]) where
  unique := h.unique.append hid
  single := by
    intro c hc d hd hcd hdd hkind
    rw [List.mem_append, List.mem_singleton] at hc hd
    rw [ofKind_iff] at hkind
    rcases hc with hc | rfl <;> rcases hd with hd | rfl
    · exact h.single c hc d hd hcd hdd (ofKind_iff.2 hkind)
    · have := (hdefault hdd).2.2 c hc (ofKind_iff.2 ⟨hkind.1.symm, hkind.2.symm⟩)
      rw [hcd] at this
      cases this
    · have := (hdefault hcd).2.2 d hd (ofKind_iff.2 hkind)
      rw [hdd] at this
      cases this
    · rfl
  own := by
    intro c hc hcd
    rcases List.mem_append.1 hc with hc | hc
    · exact h.own c hc hcd
    · rw [List.mem_singleton.1 hc] at hcd ⊢
      exact ⟨(hdefault hcd).1, (hdefault hcd).2.1⟩
  calendars := by
    intro c hc hflag
    rcases List.mem_append.1 hc with hc | hc
    · exact h.calendars c hc hflag
    · rw [List.mem_singleton.1 hc] at hflag ⊢
      exact hcalendar hflag

theorem Served.append (h : Served t account kind)
    (hrow : ofKind account kind row = true → row.birthdays = false → row.isDefault = true ∨
      ∃ d ∈ t, ofKind account kind d = true ∧ d.isDefault = true) :
    Served (t ++ [row]) account kind := by
  rintro ⟨c, hc, hkind, hplain⟩
  rcases List.mem_append.1 hc with hc | hc
  · obtain ⟨d, hd, hdk⟩ := h ⟨c, hc, hkind, hplain⟩
    exact ⟨d, List.mem_append_left _ hd, hdk⟩
  · rw [List.mem_singleton.1 hc] at hkind hplain
    rcases hrow hkind hplain with hdef | ⟨d, hd, hdk⟩
    · exact ⟨row, by simp, hkind, hdef⟩
    · exact ⟨d, List.mem_append_left _ hd, hdk⟩

theorem Fit.sublist {t' : List DavCollection} (h : Fit t) (hs : t'.Sublist t) : Fit t' where
  unique := h.unique.sublist hs
  single := fun c hc d hd => h.single c (hs.subset hc) d (hs.subset hd)
  own := fun c hc => h.own c (hs.subset hc)
  calendars := fun c hc => h.calendars c (hs.subset hc)

/-- A write that leaves alone what the law is about, or takes a feed away. -/
structure Keeps (t : List DavCollection) (f : DavCollection → DavCollection) : Prop where
  id : ∀ c, (f c).id = c.id
  accountId : ∀ c, (f c).accountId = c.accountId
  kind : ∀ c, (f c).kind = c.kind
  isDefault : ∀ c, (f c).isDefault = c.isDefault
  birthdays : ∀ c, (f c).birthdays = c.birthdays
  subscribed : ∀ c ∈ t, (f c).subscribed = true → c.subscribed = true

theorem Keeps.ite {f : DavCollection → DavCollection} (hf : Keeps t f) (p : DavCollection → Bool) :
    Keeps t fun c => if p c then f c else c := by
  constructor <;> intro c <;> by_cases hp : p c = true <;>
    simp [hp, hf.id c, hf.accountId c, hf.kind c, hf.isDefault c, hf.birthdays c]
  exact hf.subscribed c

theorem Fit.map {f : DavCollection → DavCollection} (h : Fit t) (hf : Keeps t f) : Fit (t.map f) where
  unique := h.unique.map hf.id
  single := by
    intro c' hc' d' hd' hcd hdd hkind
    obtain ⟨c, hc, rfl⟩ := List.mem_map.1 hc'
    obtain ⟨d, hd, rfl⟩ := List.mem_map.1 hd'
    rw [ofKind_iff, hf.accountId, hf.kind, hf.accountId, hf.kind] at hkind
    rw [hf.isDefault] at hcd hdd
    rw [h.single c hc d hd hcd hdd (ofKind_iff.2 hkind)]
  own := by
    intro c' hc' hcd
    obtain ⟨c, hc, rfl⟩ := List.mem_map.1 hc'
    rw [hf.isDefault] at hcd
    obtain ⟨hsub, hbirth⟩ := h.own c hc hcd
    refine ⟨?_, (hf.birthdays c).trans hbirth⟩
    by_contra hs
    rw [hf.subscribed c hc (Bool.eq_true_of_not_eq_false hs)] at hsub
    cases hsub
  calendars := by
    intro c' hc' hflag
    obtain ⟨c, hc, rfl⟩ := List.mem_map.1 hc'
    rw [hf.kind]
    rw [hf.birthdays] at hflag
    exact h.calendars c hc (hflag.imp (hf.subscribed c hc) fun hb => hb)

theorem Served.map {f : DavCollection → DavCollection} (h : Served t account kind) (hf : Keeps t f) :
    Served (t.map f) account kind := by
  rintro ⟨c', hc', hkind, hplain⟩
  obtain ⟨c, hc, rfl⟩ := List.mem_map.1 hc'
  rw [ofKind_iff, hf.accountId, hf.kind] at hkind
  rw [hf.birthdays] at hplain
  obtain ⟨d, hd, hdk, hdd⟩ := h ⟨c, hc, ofKind_iff.2 hkind, hplain⟩
  rw [ofKind_iff] at hdk
  refine ⟨f d, List.mem_map_of_mem hd, ?_, (hf.isDefault d).trans hdd⟩
  rw [ofKind_iff, hf.accountId, hf.kind]
  exact hdk

/-- The flag moves to `c₀`. -/
def flagged (c₀ c : DavCollection) : DavCollection :=
  { c with isDefault := c.id == c₀.id || (c.isDefault && !ofKind c₀.accountId c₀.kind c) }

theorem Fit.flagged (h : Fit t) (hc₀ : c₀ ∈ t)
    (hown : c₀.subscribed = false ∧ c₀.birthdays = false) : Fit (t.map (flagged c₀)) where
  unique := h.unique.map fun _ => rfl
  single := by
    intro c' hc' d' hd' hcd hdd hkind
    obtain ⟨c, hc, rfl⟩ := List.mem_map.1 hc'
    obtain ⟨d, hd, rfl⟩ := List.mem_map.1 hd'
    simp only [Collections.flagged, Bool.or_eq_true, beq_iff_eq, Bool.and_eq_true, Bool.not_eq_true',
      ← Bool.not_eq_true, ofKind_iff] at hcd hdd hkind
    have heq : c = d := by
      rcases hcd with hcid | ⟨hcdef, hcno⟩ <;> rcases hdd with hdid | ⟨hddef, hdno⟩
      · exact h.unique.eq hc hd (hcid.trans hdid.symm)
      · have := h.unique.eq hc hc₀ hcid
        subst this
        exact absurd hkind hdno
      · have := h.unique.eq hd hc₀ hdid
        subst this
        exact absurd ⟨hkind.1.symm, hkind.2.symm⟩ hcno
      · exact h.single c hc d hd hcdef hddef (ofKind_iff.2 hkind)
    rw [heq]
  own := by
    intro c' hc' hcd
    obtain ⟨c, hc, rfl⟩ := List.mem_map.1 hc'
    simp only [Collections.flagged, Bool.or_eq_true, beq_iff_eq, Bool.and_eq_true] at hcd
    rcases hcd with hid | ⟨hdef, -⟩
    · rw [h.unique.eq hc hc₀ hid]
      exact hown
    · exact h.own c hc hdef
  calendars := by
    intro c' hc' hflag
    obtain ⟨c, hc, rfl⟩ := List.mem_map.1 hc'
    exact h.calendars c hc hflag

theorem Served.flagged (h : Served t account kind) (hc₀ : c₀ ∈ t) :
    Served (t.map (flagged c₀)) account kind := by
  rintro ⟨c', hc', hkind, hplain⟩
  obtain ⟨c, hc, rfl⟩ := List.mem_map.1 hc'
  by_cases hsame : ofKind account kind c₀ = true
  · exact ⟨Collections.flagged c₀ c₀, List.mem_map_of_mem hc₀, hsame, by simp [Collections.flagged]⟩
  · obtain ⟨d, hd, hdk, hdd⟩ := h ⟨c, hc, hkind, hplain⟩
    refine ⟨Collections.flagged c₀ d, List.mem_map_of_mem hd, hdk, ?_⟩
    have hother : ofKind c₀.accountId c₀.kind d = false := by
      by_contra hno
      rw [Bool.not_eq_false, ofKind_iff] at hno
      rw [ofKind_iff] at hdk hsame
      exact hsame ⟨hno.1.symm.trans hdk.1, hno.2.symm.trans hdk.2⟩
    simp [Collections.flagged, hdd, hother]

/-- Where one collection goes, only its own kind may be left without a default. -/
theorem Served.filter {id : Int} (h : Served t account kind)
    (hgone : ∀ c ∈ t, c.id = id → ofKind account kind c = true → c.isDefault = false) :
    Served (t.filter fun c => !(c.id == id)) account kind := by
  rintro ⟨c, hc, hkind, hplain⟩
  obtain ⟨d, hd, hdk, hdd⟩ := h ⟨c, (List.mem_filter.1 hc).1, hkind, hplain⟩
  refine ⟨d, List.mem_filter.2 ⟨hd, ?_⟩, hdk, hdd⟩
  by_contra hid
  simp only [Bool.not_eq_true', beq_eq_false_iff_ne, ne_eq, not_not] at hid
  rw [hgone d hd hid hdk] at hdd
  cases hdd

end Lists

/-! ## 3. What the functions write -/

section Writes

variable {db db' : Db} {account : Int} {kind : DavKind}

/-- What `insert_collection` writes. -/
structure Inserted (account : Int) (kind : DavKind) (id : Int) (db db' : Db) (row : DavCollection) : Prop where
  eq : db' = { db with collections := db.collections ++ [row], collectionSeq := id }
  next : id = db.collectionSeq + 1
  id : row.id = id
  belongs : ofKind account kind row = true
  plain : row.subscribed = false ∧ row.birthdays = false
  isDefault : row.isDefault = !db.collections.any fun c =>
    c.accountId == account && c.kind == kind && c.isDefault

theorem inserted {new : NewDavCollection} {now id : Int}
    (h : insertCollection account kind new now db = .ok (id, db')) :
    ∃ row, Inserted account kind id db db' row := by
  unfold insertCollection at h
  split at h
  · cases h
  split at h
  · cases h
  split at h
  · cases h
  cases h
  exact ⟨_, rfl, rfl, rfl, by simp, ⟨rfl, rfl⟩, rfl⟩

theorem Inserted.other {id : Int} (h : Inserted account kind id db db' row)
    (hids : ∀ c ∈ db.collections, c.id ≤ db.collectionSeq) : ∀ c ∈ db.collections, c.id ≠ id := by
  intro c hc heq
  have := hids c hc
  have := h.next
  omega

/-- The new one is the default where no other of its kind is. -/
theorem Inserted.no_default {id : Int} (h : Inserted account kind id db db' row)
    (hdef : row.isDefault = true) :
    ∀ c ∈ db.collections, ofKind row.accountId row.kind c = true → c.isDefault = false := by
  intro c hc hkind
  have hrow := ofKind_iff.1 h.belongs
  rw [h.isDefault, Bool.not_eq_true', List.any_eq_false] at hdef
  have := hdef c hc
  rw [ofKind_iff, hrow.1, hrow.2] at hkind
  simpa [hkind] using this

theorem Inserted.served {id : Int} (h : Inserted account kind id db db' row) :
    row.isDefault = true ∨ ∃ d ∈ db.collections, ofKind account kind d = true ∧ d.isDefault = true := by
  by_cases hdef : row.isDefault = true
  · exact .inl hdef
  · right
    rw [h.isDefault, Bool.not_eq_true', Bool.not_eq_false, List.any_eq_true] at hdef
    obtain ⟨d, hd, hdd⟩ := hdef
    simp only [Bool.and_eq_true, beq_iff_eq] at hdd
    exact ⟨d, hd, ofKind_iff.2 hdd.1, hdd.2⟩

/-- Writing the collection that was made last. -/
theorem updateWhere_append_new {t : List DavCollection} {id : Int}
    (f : DavCollection → DavCollection) (hid : row.id = id) (hnew : ∀ c ∈ t, c.id ≠ id) :
    updateWhere (fun c => c.id == id) f (t ++ [row]) = t ++ [f row] := by
  unfold updateWhere
  rw [List.map_append]
  congr 1
  · refine (List.map_congr_left ?_).trans (List.map_id t)
    intro c hc
    simp [hnew c hc]
  · simp [hid]

theorem collections_updateCollection (id : Int) (f : DavCollection → DavCollection) :
    (db.updateCollection id f).collections = db.collections.map fun c => if c.id == id then f c else c := rfl

theorem setDefault_collections (h : c₀.isDefault = false) :
    (setDefault c₀ db).collections = db.collections.map (flagged c₀) := by
  unfold setDefault
  rw [if_neg (by simp [h]), collections_updateCollection]
  simp only [updateWhere, List.map_map]
  refine List.map_congr_left fun c _ => ?_
  rw [Function.comp_apply]
  cases hin : (ofKind c₀.accountId c₀.kind c && c.isDefault) with
  | true =>
    have hkind := (Bool.and_eq_true_iff.1 hin).1
    by_cases hid : c.id = c₀.id
    · simp [flagged, hid]
    · simp only [flagged, hkind]
      simp [hid]
  | false =>
    have hsame : (c.isDefault && !ofKind c₀.accountId c₀.kind c) = c.isDefault := by
      cases hdef : c.isDefault with
      | false => rfl
      | true =>
        rw [hdef, Bool.and_true] at hin
        rw [hin]
        rfl
    simp only [flagged, hsame]
    by_cases hid : c.id = c₀.id
    · simp [hid]
    · have hne : (c.id == c₀.id) = false := beq_eq_false_iff_ne.2 hid
      simp [hne]

theorem keeps_update {t : List DavCollection} (update : DavCollectionUpdate) : Keeps t fun c =>
    { c with
      displayName := (update.displayName.map trim).getD c.displayName
      description := (update.description.map trim).getD c.description
      color := update.color.getD c.color
      sortOrder := update.sortOrder.getD c.sortOrder
      timezone := update.timezone.getD c.timezone
      isVisible := update.isVisible.getD c.isVisible } :=
  ⟨fun _ => rfl, fun _ => rfl, fun _ => rfl, fun _ => rfl, fun _ => rfl, fun _ _ h => h⟩

theorem keeps_bump {t : List DavCollection} : Keeps t fun c => { c with change := c.change + 1 } :=
  ⟨fun _ => rfl, fun _ => rfl, fun _ => rfl, fun _ => rfl, fun _ => rfl, fun _ _ h => h⟩

end Writes

/-! ## 4. What holds in every state -/

/-- Whether a feed fills the collection. -/
def World.fed (w : World) (id : Int) : Bool := w.subscriptions.any fun s => s.collectionId == id

structure Inv (w : World) : Prop where
  fit : Fit w.db.collections
  served : ∀ account kind, Served w.db.collections account kind
  ids : ∀ c ∈ w.db.collections, c.id ≤ w.db.collectionSeq
  feeds : ∀ c ∈ w.db.collections, w.fed c.id = true → c.subscribed = true
  known : ∀ s ∈ w.subscriptions, s.collectionId ≤ w.db.collectionSeq
  apart : UniqueKey CalendarSubscription.collectionId w.subscriptions

variable {w w' : World} {account : Int} {kind : DavKind}

theorem inv_empty : Inv {} := by
  refine ⟨.nil, ?_, ?_, ?_, ?_, .nil⟩
  · rintro account kind ⟨c, hc, -⟩
    cases hc
  · intro c hc
    cases hc
  · intro c hc
    cases hc
  · intro s hs
    cases hs

/-- A new collection that is what `f` makes of the row that was inserted. -/
theorem Inv.insert (h : Inv w) {id : Int} {db : Db}
    (hins : Inserted account kind id w.db db row) (row' : DavCollection) (hid : row'.id = row.id)
      (hkind : ofKind account kind row' = true)
    (hdefault : row'.isDefault = true → row'.subscribed = false ∧ row'.birthdays = false ∧
      row.isDefault = true)
    (hcalendar : row'.subscribed = true ∨ row'.birthdays = true → kind = .calendar)
    (hserved : row'.birthdays = false → row'.isDefault = row.isDefault) :
    Inv { w with db := { w.db with collections := w.db.collections ++ [row'], collectionSeq := id } } := by
  have hnew : ∀ c ∈ w.db.collections, c.id ≠ row'.id := by
    rw [hid, hins.id]
    exact hins.other h.ids
  have hrow := ofKind_iff.1 hins.belongs
  have hrow' := ofKind_iff.1 hkind
  have hnext := hins.next
  constructor
  · refine h.fit.append hnew ?_ ?_
    · intro hdef
      obtain ⟨hsub, hbirth, hrowdef⟩ := hdefault hdef
      refine ⟨hsub, hbirth, ?_⟩
      rw [hrow'.1, hrow'.2, ← hrow.1, ← hrow.2]
      exact hins.no_default hrowdef
    · rw [hrow'.2]
      exact hcalendar
  · intro account' kind'
    refine (h.served account' kind').append ?_
    intro hkind' hplain
    rw [ofKind_iff, hrow'.1, hrow'.2] at hkind'
    rw [hserved hplain, ← hkind'.1, ← hkind'.2]
    exact hins.served
  · intro c hc
    have := hins.id
    rcases List.mem_append.1 hc with hc | hc
    · have := h.ids c hc
      simp only
      omega
    · rw [List.mem_singleton.1 hc]
      simp only
      omega
  · intro c hc hcfed
    rcases List.mem_append.1 hc with hc | hc
    · exact h.feeds c hc hcfed
    · obtain ⟨s, hs, hsid⟩ := List.any_eq_true.1 hcfed
      rw [List.mem_singleton.1 hc, hid, hins.id, beq_iff_eq] at hsid
      have := h.known s hs
      omega
  · intro s hs
    have := h.known s hs
    simp only
    omega
  · exact h.apart

/-- A collection is made, as it comes. -/
theorem Inv.inserted (h : Inv w) {new : NewDavCollection} {now id : Int} {db : Db}
    (hins : insertCollection account kind new now w.db = .ok (id, db)) :
    Inv { w with db } ∧ ∃ d ∈ db.collections, ofKind account kind d = true ∧ d.isDefault = true := by
  obtain ⟨row, hrow⟩ := Collections.inserted hins
  have hinv := h.insert hrow row rfl hrow.belongs (fun hdef => ⟨hrow.plain.1, hrow.plain.2, hdef⟩)
    (by simp [hrow.plain]) fun _ => rfl
  rw [← hrow.eq] at hinv
  refine ⟨hinv, ?_⟩
  refine hinv.served account kind ⟨row, ?_, hrow.belongs, hrow.plain.2⟩
  rw [hrow.eq]
  exact List.mem_append_right _ (List.mem_singleton_self row)

/-- The account's first collection. -/
theorem Inv.makeFirst (h : Inv w) {sort : DavCollection → Bool} {fresh : NewDavCollection} {now : Int}
    {db : Db} (hmake : Collections.makeFirst account kind sort fresh now w.db = .ok db) :
    Inv { w with db } ∧ ((∃ d ∈ db.collections, ofKind account kind d = true ∧ d.isDefault = true) ∨
      (db = w.db ∧ ∃ c ∈ w.db.collections, ofKind account kind c = true ∧ sort c = true)) := by
  unfold Collections.makeFirst at hmake
  split at hmake
  · rename_i hany
    cases hmake
    obtain ⟨c, hc, hkind⟩ := List.any_eq_true.1 hany
    rw [Bool.and_eq_true] at hkind
    exact ⟨h, .inr ⟨rfl, c, hc, hkind⟩⟩
  · cases hins : insertCollection account kind fresh now w.db with
    | error e =>
      rw [hins] at hmake
      cases hmake
    | ok r =>
      rw [hins] at hmake
      cases hmake
      obtain ⟨hinv, hdef⟩ := h.inserted hins
      exact ⟨hinv, .inl hdef⟩

/-- A write of one collection that leaves alone what the law is about. -/
theorem Inv.updateCollection (h : Inv w) (id : Int) {f : DavCollection → DavCollection}
    (hf : Keeps w.db.collections f) (hsub : ∀ c, (f c).subscribed = c.subscribed) :
    Inv { w with db := w.db.updateCollection id f } := by
  have hkeeps := hf.ite fun c => c.id == id
  have hid : ∀ c, (if c.id == id then f c else c).id = c.id := hkeeps.id
  constructor
  · exact h.fit.map hkeeps
  · exact fun account kind => (h.served account kind).map hkeeps
  · intro c' hc'
    obtain ⟨c, hc, rfl⟩ := List.mem_map.1 hc'
    rw [hid]
    exact h.ids c hc
  · intro c' hc' hfed
    obtain ⟨c, hc, rfl⟩ := List.mem_map.1 hc'
    rw [hid] at hfed
    have := h.feeds c hc hfed
    split
    · rw [hsub]
      exact this
    · exact this
  · exact h.known
  · exact h.apart

theorem Inv.nextChange (h : Inv w) {id : Int} {n : Nat} {db : Db}
    (hdb : Dav.nextChange id w.db = .ok (n, db)) : Inv { w with db } := by
  obtain ⟨-, -, -, rfl⟩ := nextChange_ok hdb
  exact h.updateCollection id keeps_bump fun _ => rfl

theorem Inv.applyCollectionUpdate (h : Inv w) {id : Int} {update : DavCollectionUpdate} {db : Db}
    (hdb : Dav.applyCollectionUpdate id update w.db = .ok db) : Inv { w with db } := by
  unfold Dav.applyCollectionUpdate at hdb
  obtain ⟨⟨n, db₁⟩, hnext, heq⟩ := except_bind_ok hdb
  cases heq
  exact (h.updateCollection id (keeps_update update) fun _ => rfl).nextChange hnext

/-- The flag moves. -/
theorem Inv.flagged (h : Inv w) (hc₀ : c₀ ∈ w.db.collections)
    (hown : c₀.subscribed = false ∧ c₀.birthdays = false) {db : Db}
    (hdb : db = { w.db with collections := w.db.collections.map (Collections.flagged c₀) }) :
    Inv { w with db } := by
  subst hdb
  constructor
  · exact h.fit.flagged hc₀ hown
  · exact fun account kind => (h.served account kind).flagged hc₀
  · intro c' hc'
    obtain ⟨c, hc, rfl⟩ := List.mem_map.1 hc'
    exact h.ids c hc
  · intro c' hc' hfed
    obtain ⟨c, hc, rfl⟩ := List.mem_map.1 hc'
    exact h.feeds c hc hfed
  · exact h.known
  · exact h.apart

theorem Inv.setDefault (h : Inv w) (hc₀ : c₀ ∈ w.db.collections)
    (hown : c₀.subscribed = false ∧ c₀.birthdays = false) :
    Inv { w with db := Collections.setDefault c₀ w.db } := by
  cases hdef : c₀.isDefault with
  | true =>
    unfold Collections.setDefault
    rw [if_pos hdef]
    exact h
  | false =>
    refine h.flagged hc₀ hown ?_
    have := @setDefault_collections _ w.db hdef
    unfold Collections.setDefault at this ⊢
    rw [if_neg (by simp [hdef])] at this ⊢
    simp only [Db.updateCollection] at this ⊢
    rw [this]

/-- The successor that `ensure_default` finds. -/
theorem ensureDefault_cases (account : Int) (kind : DavKind) (db : Db) :
    (ensureDefault account kind db = db ∧ ((∃ c ∈ db.collections, ofKind account kind c = true ∧
        c.isDefault = true) ∨
      ∀ c ∈ db.collections, ofKind account kind c = true → c.subscribed = true ∨ c.birthdays = true)) ∨
    ∃ c₀ ∈ db.collections, ofKind account kind c₀ = true ∧ c₀.subscribed = false ∧ c₀.birthdays = false ∧
      (∀ c ∈ db.collections, ofKind account kind c = true → c.isDefault = false) ∧
      ensureDefault account kind db = db.updateCollection c₀.id fun c => { c with isDefault := true } := by
  unfold ensureDefault
  split
  · rename_i hany
    obtain ⟨c, hc, hck⟩ := List.any_eq_true.1 hany
    exact .inl ⟨rfl, .inl ⟨c, hc, Bool.and_eq_true_iff.1 hck⟩⟩
  · rename_i hnone
    have hno : ∀ c ∈ db.collections, ofKind account kind c = true → c.isDefault = false := by
      intro c hc hkind
      by_contra hdef
      exact hnone (List.any_eq_true.2 ⟨c, hc, by simp [hkind, Bool.eq_true_of_not_eq_false hdef]⟩)
    simp only
    split
    · rename_i first hfirst
      have hmem := List.mem_of_mem_head? hfirst
      rw [List.mem_insertionSort, List.mem_filter] at hmem
      simp only [Bool.and_eq_true, Bool.not_eq_true'] at hmem
      exact .inr ⟨first, hmem.1, hmem.2.1.1, hmem.2.1.2, hmem.2.2, hno, rfl⟩
    · rename_i hempty
      rw [List.head?_eq_none_iff] at hempty
      refine .inl ⟨rfl, .inr ?_⟩
      intro c hc hkind
      by_contra hno'
      rw [not_or, Bool.not_eq_true, Bool.not_eq_true] at hno'
      have : c ∈ (db.collections.filter fun c => ofKind account kind c && !c.subscribed &&
          !c.birthdays).insertionSort fun c d =>
            c.sortOrder < d.sortOrder ∨ (c.sortOrder = d.sortOrder ∧ c.id ≤ d.id) := by
        rw [List.mem_insertionSort, List.mem_filter]
        exact ⟨hc, by simp [hkind, hno'.1, hno'.2]⟩
      rw [hempty] at this
      cases this

/-- **Deleting**: where the default goes, one that may follow it is left, or none but the birthdays
calendar. -/
theorem Inv.deleteCollection (h : Inv w) (hc₀ : c₀ ∈ w.db.collections)
    (hrest : c₀.isDefault = true →
      (∃ d ∈ w.db.collections, d.id ≠ c₀.id ∧ ofKind c₀.accountId c₀.kind d = true ∧
        d.subscribed = false ∧ d.birthdays = false) ∨
      ∀ d ∈ w.db.collections, d.id ≠ c₀.id → ofKind c₀.accountId c₀.kind d = true → d.birthdays = true) :
    Inv (Collections.deleteCollection c₀ w) := by
  let t := w.db.collections.filter fun c => !(c.id == c₀.id)
  have hsub : t.Sublist w.db.collections := List.filter_sublist
  have hmem : ∀ d, d ∈ t ↔ d ∈ w.db.collections ∧ d.id ≠ c₀.id := by
    intro d
    rw [List.mem_filter]
    simp
  have hfit : Fit t := h.fit.sublist hsub
  have hfeeds : ∀ c ∈ t, (Collections.deleteCollection c₀ w).fed c.id = true → c.subscribed = true := by
    intro c hc hfed
    obtain ⟨s, hs, hsid⟩ := List.any_eq_true.1 hfed
    exact h.feeds c (hsub.subset hc) (List.any_eq_true.2 ⟨s, (mem_deleteWhere.1 hs).1, hsid⟩)
  have hknown : ∀ s ∈ (Collections.deleteCollection c₀ w).subscriptions,
      s.collectionId ≤ w.db.collectionSeq := fun s hs => h.known s (mem_deleteWhere.1 hs).1
  have hapart : UniqueKey CalendarSubscription.collectionId (Collections.deleteCollection c₀ w).subscriptions :=
    h.apart.deleteWhere _
  have hother : ∀ account kind, ¬ (ofKind account kind c₀ = true ∧ c₀.isDefault = true) →
      Served t account kind := by
    intro account kind hno
    refine (h.served account kind).filter ?_
    intro c hc hid hkind
    have := h.fit.unique.eq hc hc₀ hid
    subst this
    by_contra hdef
    exact hno ⟨hkind, Bool.eq_true_of_not_eq_false hdef⟩
  cases hdef : c₀.isDefault with
  | false =>
    have hdb : (Collections.deleteCollection c₀ w).db = w.db.deleteCollections fun c => c.id == c₀.id := by
      simp [Collections.deleteCollection, hdef]
    refine ⟨?_, ?_, ?_, ?_, ?_, hapart⟩ <;> rw [hdb]
    · exact hfit
    · exact fun account kind => hother account kind (by simp [hdef])
    · exact fun c hc => h.ids c (hsub.subset hc)
    · exact hfeeds
    · exact hknown
  | true =>
    let db := w.db.deleteCollections fun c => c.id == c₀.id
    have hdb : (Collections.deleteCollection c₀ w).db = ensureDefault c₀.accountId c₀.kind db := by
      simp [Collections.deleteCollection, hdef, db]
    have hservedOther : ∀ account kind, ofKind account kind c₀ ≠ true → Served t account kind :=
      fun account kind hno => hother account kind fun hyes => hno hyes.1
    have hgone : ∀ c ∈ t, ofKind c₀.accountId c₀.kind c = true → c.isDefault = false := by
      intro c hc hkind
      by_contra hcdef
      have hc := (hmem c).1 hc
      have := h.fit.single c₀ hc₀ c hc.1 hdef (Bool.eq_true_of_not_eq_false hcdef) hkind
      exact hc.2 (by rw [this])
    rcases ensureDefault_cases c₀.accountId c₀.kind db with ⟨heq, hnone⟩ |
      ⟨c₁, hc₁, hkind₁, hsub₁, hbirth₁, -, heq⟩
    · -- Only the birthdays calendar is left.
      have hbirthdays : ∀ d ∈ t, ofKind c₀.accountId c₀.kind d = true → d.birthdays = true := by
        intro d hd hkind
        rcases hnone with ⟨c, hc, hck, hcd⟩ | hnone
        · rw [hgone c hc hck] at hcd
          cases hcd
        · rcases hrest hdef with ⟨e, he, hne, hek, hesub, hebirth⟩ | hall
          · rcases hnone e ((hmem e).2 ⟨he, hne⟩) hek with hs | hb
            · rw [hesub] at hs
              cases hs
            · rw [hebirth] at hb
              cases hb
          · have hd := (hmem d).1 hd
            exact hall d hd.1 hd.2 hkind
      refine ⟨?_, ?_, ?_, ?_, ?_, hapart⟩ <;> rw [hdb, heq]
      · exact hfit
      · intro account kind
        by_cases hk : ofKind account kind c₀ = true
        · rw [ofKind_iff] at hk
          rintro ⟨c, hc, hck, hplain⟩
          rw [← hk.1, ← hk.2] at hck
          rw [hbirthdays c hc hck] at hplain
          cases hplain
        · exact hservedOther account kind hk
      · exact fun c hc => h.ids c (hsub.subset hc)
      · exact hfeeds
      · exact hknown
    · -- The first of the rest takes over.
      have hflag : (db.updateCollection c₁.id fun c => { c with isDefault := true }).collections =
          t.map (Collections.flagged c₁) := by
        rw [collections_updateCollection]
        refine List.map_congr_left fun c hc => ?_
        by_cases hid : c.id = c₁.id
        · simp [Collections.flagged, hid]
        · have hne : (c.id == c₁.id) = false := beq_eq_false_iff_ne.2 hid
          have hsame : (c.isDefault && !ofKind c₁.accountId c₁.kind c) = c.isDefault := by
            cases hk : ofKind c₁.accountId c₁.kind c with
            | false => simp
            | true =>
              rw [ofKind_iff] at hkind₁
              rw [hkind₁.1, hkind₁.2] at hk
              rw [hgone c hc hk]
              rfl
          simp only [Collections.flagged, hsame, hne]
          simp
      refine ⟨?_, ?_, ?_, ?_, ?_, hapart⟩ <;> rw [hdb, heq]
      · rw [hflag]
        exact hfit.flagged hc₁ ⟨hsub₁, hbirth₁⟩
      · intro account kind
        rw [hflag]
        by_cases hk : ofKind account kind c₀ = true
        · rintro -
          rw [ofKind_iff] at hk hkind₁
          exact ⟨Collections.flagged c₁ c₁, List.mem_map_of_mem hc₁,
            ofKind_iff.2 ⟨hkind₁.1.trans hk.1, hkind₁.2.trans hk.2⟩, by simp [Collections.flagged]⟩
        · exact (hservedOther account kind hk).flagged hc₁
      · rw [hflag]
        intro c' hc'
        obtain ⟨c, hc, rfl⟩ := List.mem_map.1 hc'
        exact h.ids c (hsub.subset hc)
      · rw [hflag]
        intro c' hc' hfed
        obtain ⟨c, hc, rfl⟩ := List.mem_map.1 hc'
        exact hfeeds c hc hfed
      · exact hknown

/-! ## 5. One step -/

theorem ownCollection_ok {db : Db} {owner : Option Int} {id : Int}
    (h : ownCollection db owner id = .ok c) :
    c ∈ db.collections ∧ c.id = id ∧ owner.all (c.accountId == ·) = true := by
  unfold ownCollection at h
  split at h
  · rename_i hfind
    cases h
    have := List.find?_some hfind
    simp only [Bool.and_eq_true, beq_iff_eq] at this
    exact ⟨List.mem_of_find?_eq_some hfind, this⟩
  · cases h

theorem ownOfKind_ok {db : Db} {id : Int} (h : ownOfKind account kind id db = .ok c) :
    c ∈ db.collections ∧ c.id = id ∧ ofKind account kind c = true := by
  obtain ⟨c₁, hown, h⟩ := except_bind_ok h
  obtain ⟨hmem, hid, hacc⟩ := ownCollection_ok hown
  split at h
  · rename_i hkind
    cases h
    exact ⟨hmem, hid, ofKind_iff.2 ⟨by simpa using hacc, hkind⟩⟩
  · cases kind <;> cases h

theorem Inv.subscribe {digest : String → String} {new : NewCalendarSubscription} {fresh : NewDavCollection}
    {now : Int} (h : Inv w) (hplain : Plain w (.subscribe account new fresh now))
    (hcall : createCalendarSubscription digest account new fresh now w = .ok w') : Inv w' := by
  unfold createCalendarSubscription at hcall
  split at hcall
  · cases hcall
  split at hcall
  · cases hcall
  split at hcall
  · cases hcall
  obtain ⟨db₁, hmake, hcall⟩ := except_bind_ok hcall
  obtain ⟨⟨id, db₂⟩, hins, hcall⟩ := except_bind_ok hcall
  cases hcall
  obtain ⟨hinv₁, hfound⟩ := h.makeFirst hmake
  have hserved : ∃ d ∈ db₁.collections, ofKind account .calendar d = true ∧ d.isDefault = true := by
    rcases hfound with hdef | ⟨rfl, c, hc, hkind, -⟩
    · exact hdef
    · exact hinv₁.served account .calendar (hplain (List.any_eq_true.2 ⟨c, hc, hkind⟩))
  obtain ⟨row, hrow⟩ := Collections.inserted hins
  -- Another calendar is the default, so the feed is not.
  have hnot : row.isDefault = false := by
    rw [hrow.isDefault, Bool.not_eq_false']
    obtain ⟨d, hd, hkind, hdef⟩ := hserved
    rw [ofKind_iff] at hkind
    exact List.any_eq_true.2 ⟨d, hd, by simp [hkind, hdef]⟩
  have hinv := hinv₁.insert hrow { row with subscribed := true } rfl hrow.belongs
    (fun hdef => by simp [hnot] at hdef) (fun _ => rfl) fun _ => rfl
  have hdb : (db₂.updateCollection id fun c => { c with subscribed := true }).collections =
      db₁.collections ++ [{ row with subscribed := true }] := by
    rw [hrow.eq]
    exact updateWhere_append_new (fun c => { c with subscribed := true }) hrow.id (hrow.other hinv₁.ids)
  have hseq : (db₂.updateCollection id fun c => { c with subscribed := true }).collectionSeq = id := by
    rw [hrow.eq]
    rfl
  have hnext : id = db₁.collectionSeq + 1 := hrow.next
  refine ⟨?_, ?_, ?_, ?_, ?_, ?_⟩ <;> try simp only [hdb, hseq]
  · exact hinv.fit
  · exact hinv.served
  · exact hinv.ids
  · intro c hc hfed
    rcases List.mem_append.1 hc with hcold | hcnew
    · refine hinv.feeds c hc ?_
      obtain ⟨s, hs, hsid⟩ := List.any_eq_true.1 hfed
      rcases List.mem_append.1 hs with hs | hs
      · exact List.any_eq_true.2 ⟨s, hs, hsid⟩
      · rw [List.mem_singleton.1 hs] at hsid
        have : c.id ≤ db₁.collectionSeq := hinv₁.ids c hcold
        simp only [beq_iff_eq] at hsid
        omega
    · rw [List.mem_singleton.1 hcnew]
  · intro s hs
    rcases List.mem_append.1 hs with hs | hs
    · exact hinv.known s hs
    · rw [List.mem_singleton.1 hs]
  · refine hinv₁.apart.append ?_
    intro s hs heq
    have : s.collectionId ≤ db₁.collectionSeq := hinv₁.known s hs
    simp only at heq
    omega

theorem Inv.unsubscribe {id : Int} {keepEntries : Bool} (h : Inv w)
    (hcall : deleteCalendarSubscription account id keepEntries w = .ok w') : Inv w' := by
  unfold deleteCalendarSubscription at hcall
  split at hcall
  · cases hcall
  rename_i s hfind
  have hs := List.mem_of_find?_eq_some hfind
  have hsid : s.id = id := by
    have := List.find?_some hfind
    simp only [Bool.and_eq_true, beq_iff_eq] at this
    exact this.1
  let f : DavCollection → DavCollection := fun c =>
    if c.id == s.collectionId then { c with subscribed := false } else c
  have hkeeps : Keeps w.db.collections f := by
    constructor <;> intro c <;> by_cases hid : c.id = s.collectionId <;> simp [f, hid]
  have hinv : Inv
      { db := w.db.updateCollection s.collectionId fun c => { c with subscribed := false }
        subscriptions := deleteWhere (fun s => s.id == id) w.subscriptions } := by
    constructor
    · exact h.fit.map hkeeps
    · exact fun account kind => (h.served account kind).map hkeeps
    · intro c' hc'
      obtain ⟨c, hc, rfl⟩ := List.mem_map.1 hc'
      exact (hkeeps.id c).le.trans (h.ids c hc)
    · intro c' hc' hfed
      obtain ⟨c, hc, rfl⟩ := List.mem_map.1 hc'
      obtain ⟨r, hr, hri⟩ := List.any_eq_true.1 hfed
      obtain ⟨hr, hrid⟩ := mem_deleteWhere.1 hr
      have hid : (f c).id = c.id := hkeeps.id c
      have hri : r.collectionId = c.id := (beq_iff_eq.1 hri).trans hid
      by_cases hc₀ : c.id = s.collectionId
      · -- No other subscription fills the calendar.
        have := h.apart.eq hr hs (hri.trans hc₀)
        subst this
        simp [hsid] at hrid
      · rw [if_neg (by simpa using hc₀)]
        exact h.feeds c hc (List.any_eq_true.2 ⟨r, hr, by simp [hri]⟩)
    · exact fun r hr => h.known r (mem_deleteWhere.1 hr).1
    · exact h.apart.deleteWhere _
  obtain ⟨c, hown, hcall⟩ := except_bind_ok hcall
  split at hcall
  · obtain ⟨⟨n, db⟩, hnext, heq⟩ := except_bind_ok hcall
    cases heq
    exact hinv.nextChange hnext
  · cases hcall
    obtain ⟨hmem, hid, -⟩ := ownCollection_ok hown
    refine hinv.deleteCollection hmem fun hdef => ?_
    -- What a feed filled until now is not the default.
    obtain ⟨c₁, hc₁, rfl⟩ := List.mem_map.1 hmem
    have hid₁ := hkeeps.id c₁
    have hdef₁ := hkeeps.isDefault c₁
    simp only [f] at hid₁ hdef₁
    rw [hdef₁] at hdef
    rw [hid₁] at hid
    have hfed : w.fed c₁.id = true := List.any_eq_true.2 ⟨s, hs, by simp [hid]⟩
    have := (h.fit.own c₁ hc₁ hdef).1
    rw [h.feeds c₁ hc₁ hfed] at this
    cases this

theorem Inv.birthdays {name color random : String} {now : Int} (h : Inv w)
    (hcall : createBirthdayCalendar account name color random now w = .ok w') : Inv w' := by
  unfold createBirthdayCalendar at hcall
  split at hcall
  · cases hcall
    exact h
  obtain ⟨⟨id, db⟩, hins, hcall⟩ := except_bind_ok hcall
  cases hcall
  obtain ⟨row, hrow⟩ := Collections.inserted hins
  have hother := hrow.other h.ids
  let zone := ((db.updateCollection id fun c => { c with isDefault := false }).collections.find? fun c =>
    ofKind account .calendar c && c.isDefault).bind DavCollection.timezone
  let row' := { row with isDefault := false, timezone := zone, birthdays := true }
  have hinv := h.insert hrow row' rfl hrow.belongs (fun hdef => by simp [row'] at hdef) (fun _ => rfl)
    (fun hplain => by simp [row'] at hplain)
  have hdb : ((db.updateCollection id fun c => { c with isDefault := false }).updateCollection id fun c =>
      { c with timezone := zone, birthdays := true }) =
      { w.db with collections := w.db.collections ++ [row'], collectionSeq := id } := by
    have h₁ := updateWhere_append_new (fun c => { c with isDefault := false }) hrow.id hother
    have h₂ := updateWhere_append_new (fun c => { c with timezone := zone, birthdays := true })
      (show ({ row with isDefault := false } : DavCollection).id = id from hrow.id) hother
    rw [hrow.eq]
    simp only [Db.updateCollection]
    rw [h₁, h₂]
  rw [← hdb] at hinv
  exact hinv

theorem checkEntriesWritable_ok {u : PUnit} (h : checkEntriesWritable c = .ok u) :
    c.subscribed = false ∧ c.birthdays = false := by
  unfold checkEntriesWritable at h
  split at h
  · cases h
  split at h
  · cases h
  rename_i hbirth hsub
  exact ⟨Bool.eq_false_iff.2 hsub, Bool.eq_false_iff.2 hbirth⟩

/-- An address book is never filled by something else. -/
theorem Inv.book (h : Inv w) (hc : c ∈ w.db.collections) (hkind : c.kind = .addressbook) :
    c.subscribed = false ∧ c.birthdays = false := by
  have hno : ¬ (c.subscribed = true ∨ c.birthdays = true) := by
    intro hflag
    rw [h.fit.calendars c hc hflag] at hkind
    cases hkind
  rw [not_or, Bool.not_eq_true, Bool.not_eq_true] at hno
  exact hno

/-- Deleting an address book leaves others that may be the default, or none. -/
theorem Inv.deleteBook (h : Inv w) (hc : c ∈ w.db.collections)
    (hkind : c.kind = .addressbook) : Inv (Collections.deleteCollection c w) := by
  refine h.deleteCollection hc fun _ => ?_
  by_cases hother : ∃ d ∈ w.db.collections, d.id ≠ c.id ∧ ofKind c.accountId c.kind d = true
  · obtain ⟨d, hd, hne, hdk⟩ := hother
    exact .inl ⟨d, hd, hne, hdk, h.book hd ((ofKind_iff.1 hdk).2.trans hkind)⟩
  · exact .inr fun d hd hne hdk => absurd ⟨d, hd, hne, hdk⟩ hother

/-- Deleting a calendar where `Plain` holds. -/
theorem Inv.deletePlain (h : Inv w) {id : Int} (hc : c ∈ w.db.collections) (hid : c.id = id)
    (hacc : c.accountId = account)
    (hplain : ∀ c ∈ w.db.collections, c.id = id → ofKind account .calendar c = true → c.isDefault = true →
      (∃ d ∈ w.db.collections, d.id ≠ id ∧ ofKind account .calendar d = true ∧ d.subscribed = false ∧
        d.birthdays = false) ∨
      ∀ d ∈ w.db.collections, d.id ≠ id → ofKind account .calendar d = true → d.birthdays = true) :
    Inv (Collections.deleteCollection c w) := by
  cases hkind : c.kind with
  | addressbook => exact h.deleteBook hc hkind
  | calendar =>
    refine h.deleteCollection hc fun hdef => ?_
    rw [hid, hacc, hkind]
    exact hplain c hc hid (ofKind_iff.2 ⟨hacc, hkind⟩) hdef

/-- A transaction keeps the law where `Plain` holds. -/
theorem Inv.call {digest : String → String} {e : Event} (h : Inv w) (hplain : Plain w e)
    (hcall : e.call digest w = .ok w') : Inv w' := by
  cases e with
  | list account kind fresh now =>
    obtain ⟨db, hmake, heq⟩ := except_bind_ok hcall
    cases heq
    exact (h.makeFirst hmake).1
  | create account kind new now =>
    obtain ⟨⟨id, db⟩, hins, heq⟩ := except_bind_ok hcall
    cases heq
    exact (h.inserted hins).1
  | createWith account kind new changes now =>
    obtain ⟨⟨id, db⟩, hins, hcall⟩ := except_bind_ok hcall
    obtain ⟨db', hupd, heq⟩ := except_bind_ok hcall
    cases heq
    exact (h.inserted hins).1.applyCollectionUpdate hupd
  | update account id changes =>
    obtain ⟨c, -, hcall⟩ := except_bind_ok hcall
    obtain ⟨db', hupd, heq⟩ := except_bind_ok hcall
    cases heq
    exact h.applyCollectionUpdate hupd
  | setDefaultCalendar account id =>
    obtain ⟨c, hown, hcall⟩ := except_bind_ok hcall
    obtain ⟨u, hwritable, heq⟩ := except_bind_ok hcall
    cases heq
    exact h.setDefault (ownOfKind_ok hown).1 (checkEntriesWritable_ok hwritable)
  | setDefaultAddressBook account id =>
    obtain ⟨c, hown, heq⟩ := except_bind_ok hcall
    cases heq
    obtain ⟨hmem, -, hkind⟩ := ownOfKind_ok hown
    exact h.setDefault hmem (h.book hmem (ofKind_iff.1 hkind).2)
  | destroyCalendar account id withEvents =>
    obtain ⟨c, hown, hcall⟩ := except_bind_ok hcall
    obtain ⟨u, -, hcall⟩ := except_bind_ok hcall
    obtain ⟨hmem, hid, hkind⟩ := ownOfKind_ok hown
    split at hcall
    · cases hcall
    split at hcall
    · cases hcall
    cases hcall
    exact h.deletePlain hmem hid (ofKind_iff.1 hkind).1 hplain
  | destroyAddressBook account id withContents =>
    obtain ⟨c, hown, hcall⟩ := except_bind_ok hcall
    obtain ⟨hmem, -, hkind⟩ := ownOfKind_ok hown
    split at hcall
    · cases hcall
    split at hcall
    · cases hcall
    cases hcall
    exact h.deleteBook hmem (ofKind_iff.1 hkind).2
  | delete account id =>
    obtain ⟨c, hown, hcall⟩ := except_bind_ok hcall
    obtain ⟨u, -, heq⟩ := except_bind_ok hcall
    cases heq
    obtain ⟨hmem, hid, hacc⟩ := ownCollection_ok hown
    exact h.deletePlain hmem hid (by simpa using hacc) hplain
  | importInto account kind base new fresh now =>
    obtain ⟨db, hmake, hcall⟩ := except_bind_ok hcall
    obtain ⟨⟨id, db'⟩, hins, heq⟩ := except_bind_ok hcall
    cases heq
    exact ((h.makeFirst hmake).1.inserted hins).1
  | subscribe account new fresh now => exact h.subscribe hplain hcall
  | unsubscribe account id keepEntries => exact h.unsubscribe hcall
  | birthdays account name color random now => exact h.birthdays hcall
  | entries resources tombstones =>
    cases hcall
    exact ⟨h.fit, h.served, h.ids, h.feeds, h.known, h.apart⟩

theorem inv_step (digest : String → String) (w : World) (e : Event) (w' : World) (h : Inv w)
    (hplain : Plain w e) (hstep : step digest w e = some w') : Inv w' := by
  unfold step at hstep
  split at hstep
  · rename_i w₁ hcall
    cases hstep
    exact h.call hplain hcall
  · cases hstep
    exact h

/-! ## 6. The law, where it holds -/

/-- Listing a kind gives it a default, and takes none away. -/
theorem Inv.listed (h : Inv w) {fresh : NewDavCollection} {now : Int}
    (hlist : davCollections account kind fresh now w = .ok w') :
    Inv w' ∧ (∃ d ∈ w'.db.collections, ofKind account kind d = true ∧ d.isDefault = true) ∧
      ∀ kind', (∃ d ∈ w.db.collections, ofKind account kind' d = true ∧ d.isDefault = true) →
        ∃ d ∈ w'.db.collections, ofKind account kind' d = true ∧ d.isDefault = true := by
  obtain ⟨db, hmake, heq⟩ := except_bind_ok hlist
  cases heq
  obtain ⟨hinv, hfound⟩ := h.makeFirst hmake
  refine ⟨hinv, ?_, ?_⟩
  · rcases hfound with hdef | ⟨rfl, c, hc, hkind, hplain⟩
    · exact hdef
    · exact h.served account kind ⟨c, hc, hkind, by simpa using hplain⟩
  · rintro kind' ⟨d, hd, hdk⟩
    unfold Collections.makeFirst at hmake
    split at hmake
    · cases hmake
      exact ⟨d, hd, hdk⟩
    · cases hins : insertCollection account kind fresh now w.db with
      | error e =>
        rw [hins] at hmake
        cases hmake
      | ok r =>
        rw [hins] at hmake
        cases hmake
        obtain ⟨row, hrow⟩ := Collections.inserted hins
        rw [hrow.eq]
        exact ⟨d, List.mem_append_left _ hd, hdk⟩

/-- **Exactly one default**: after any run whose steps keep the default in place, an account whose
calendars and address books were listed has exactly one default of each kind, and neither a feed nor
the birthdays calendar is the default calendar. -/
theorem one_default_when (digest : String → String) (es : List Event) (w w' : World) (account : Int)
    (hplain : Trace.Along (step digest) Plain {} es) (hrun : Trace.run (step digest) {} es = some w)
    (hlisted : Listed account w w') : OneDefault account w' := by
  have hinv : Inv w := Trace.run_invariant (inv_step digest) inv_empty hplain hrun
  obtain ⟨kind, kind', fresh, fresh', now, now', w₁, hne, hlist, hlist'⟩ := hlisted
  obtain ⟨hinv₁, hdef₁, -⟩ := hinv.listed hlist
  obtain ⟨hinv', hdef', hkeep⟩ := hinv₁.listed hlist'
  have hboth : ∀ k, ∃ d ∈ w'.db.collections, ofKind account k d = true ∧ d.isDefault = true := by
    intro k
    by_cases hk : k = kind'
    · exact hk ▸ hdef'
    · have : k = kind := by
        cases k <;> cases kind <;> cases kind' <;> simp_all
      exact this ▸ hkeep kind hdef₁
  constructor
  · intro k
    obtain ⟨d, hd, hdk, hdd⟩ := hboth k
    refine ⟨d, ⟨hd, hdk, hdd⟩, ?_⟩
    rintro c ⟨hc, hck, hcd⟩
    rw [ofKind_iff] at hdk hck
    exact hinv'.fit.single c hc d hd hcd hdd
      (ofKind_iff.2 ⟨hdk.1.trans hck.1.symm, hdk.2.trans hck.2.symm⟩)
  · exact fun c hc _ hdef => hinv'.fit.own c hc hdef

/-! ## 7. Where it fails -/

/-- Some feed, in a calendar of its own. -/
def aFeed : NewCalendarSubscription where
  collection := { slug := "feed" }
  url := "https://example.org/feed.ics"
  intervalSecs := 3600
  keepAlarms := false

/-- Both kinds are listed. -/
def listBoth (w : World) : Except StoreError World := do
  let w ← davCollections 1 .calendar { slug := "personal" } 0 w
  davCollections 1 .addressbook { slug := "contacts" } 0 w

/-- The state after the events, listed. -/
def listedAfter (es : List Event) : Option World := (Trace.run (step id) {} es).bind fun w =>
    (listBoth w).toOption

theorem listedAfter_listed {es : List Event} {w' : World} (h : listedAfter es = some w') :
    ∃ w, Trace.run (step id) {} es = some w ∧ Listed 1 w w' := by
  obtain ⟨w, hrun, hlist⟩ := Option.bind_eq_some_iff.1 h
  cases hboth : listBoth w with
  | error e =>
    rw [hboth] at hlist
    cases hlist
  | ok w₂ =>
    rw [hboth] at hlist
    cases hlist
    obtain ⟨w₁, hcalendars, hbooks⟩ := except_bind_ok hboth
    exact ⟨w, hrun, .calendar, .addressbook, { slug := "personal" }, { slug := "contacts" }, 0, 0, w₁,
      by decide, hcalendars, hbooks⟩

/-- A feed is subscribed beside a calendar, which is deleted after another was made. -/
def inTurn : List Event :=
  [.list 1 .calendar { slug := "personal" } 0, .subscribe 1 aFeed { slug := "personal" } 0,
    .birthdays 1 "Birthdays" "#FF4D8DFF" "0a1b2c3d" 0, .create 1 .calendar { slug := "work" } 0,
    .destroyCalendar 1 1 true, .unsubscribe 1 1 true]

theorem one_default_in_turn : ∃ w', (listedAfter inTurn) = some w' ∧ OneDefault 1 w' := by
  have hsome : (listedAfter inTurn).isSome := by decide
  obtain ⟨w', hw'⟩ := Option.isSome_iff_exists.1 hsome
  obtain ⟨w, hrun, hlisted⟩ := listedAfter_listed hw'
  exact ⟨w', hw', one_default_when id inTurn w w' 1 (by decide) hrun hlisted⟩

/-- The birthdays calendar comes first, and then a feed. -/
def fedFirst : List Event :=
  [.birthdays 1 "Birthdays" "#FF4D8DFF" "0a1b2c3d" 0, .subscribe 1 aFeed { slug := "personal" } 0]

/-- **The default calendar may be a feed.** -/
theorem one_default_fails : ¬ ∀ (es : List Event) (w w' : World) (account : Int),
    Trace.run (step id) {} es = some w → Listed account w w' → OneDefault account w' := by
  intro h
  have hfed : (listedAfter fedFirst).any fun w => w.db.collections.any fun c =>
      ofKind 1 .calendar c && c.isDefault && c.subscribed := by decide
  rw [Option.any_eq_true] at hfed
  obtain ⟨w', hw', hany⟩ := hfed
  obtain ⟨c, hc, hflags⟩ := List.any_eq_true.1 hany
  simp only [Bool.and_eq_true] at hflags
  obtain ⟨w, hrun, hlisted⟩ := listedAfter_listed hw'
  have hown := (h fedFirst w w' 1 hrun hlisted).own c hc hflags.1.1 hflags.1.2
  rw [hflags.2] at hown
  cases hown.1

example : (listedAfter [.list 1 .calendar { slug := "personal" } 0,
    .subscribe 1 aFeed { slug := "personal" } 0, .delete 1 1]).map
      (fun w => w.db.collections.map fun c => (c.kind, c.subscribed, c.isDefault)) =
    some [(.calendar, true, false), (.addressbook, false, true)] := by decide

end UwuMail.Dav.Collections
