/-
# What a feed may change

Every transaction on the collections only lets entries go, and makes no calendar a subscribed one
that was not made for it (`Frame`); a person's write leaves the entries of a subscribed calendar
alone or takes them away (`Edit`); and the second half of a run writes ONE calendar (`Fed`).  So the
entries of a subscribed calendar are those its feed wrote, and each UID is among them once (`Inv`).

The write of a run looks its calendar up again and does not ask again whether a feed fills it.
Under `Kept`, where no subscription ends between the two steps of a run that found something to
change, a calendar that is not subscribed is never written (`Tame.write`).
-/
import UwuMail.Dav.Mirror
import UwuMail.Dav.Defaults

namespace UwuMail.Dav.Mirror

open Table Store Collections
open Tx (except_bind_ok)

/-! ## 1. What happens to collections -/

/-- Entries only go, collections keep their kind, and none comes to be subscribed but a new
calendar; `freed` are those whose subscription may end. -/
structure Frame (freed : Int → Prop) (db db' : Db) : Prop where
  wf : db'.Wf
  seq : db.collectionSeq ≤ db'.collectionSeq
  resources : ∀ r ∈ db'.resources, r ∈ db.resources
  collections : ∀ c' ∈ db'.collections,
    (∃ c ∈ db.collections, c.id = c'.id ∧ c.kind = c'.kind ∧
      (c'.subscribed = c.subscribed ∨ (freed c.id ∧ c'.subscribed = false))) ∨
    (db.collectionSeq < c'.id ∧ (c'.subscribed = true → c'.kind = .calendar))

variable {freed : Int → Prop} {db db' db'' : Db}

theorem Frame.refl (h : db.Wf) : Frame freed db db :=
  ⟨h, le_rfl, fun _ h => h, fun c hc => .inl ⟨c, hc, rfl, rfl, .inl rfl⟩⟩

theorem Frame.trans (h : Frame freed db db') (h' : Frame freed db' db'') : Frame freed db db'' where
  wf := h'.wf
  seq := h.seq.trans h'.seq
  resources := fun r hr => h.resources r (h'.resources r hr)
  collections := by
    intro c'' hc''
    rcases h'.collections c'' hc'' with ⟨c', hc', hid', hkind', hsub'⟩ | ⟨hnew, hcal⟩
    · rcases h.collections c' hc' with ⟨c, hc, hid, hkind, hsub⟩ | ⟨hnew, hcal⟩
      · refine .inl ⟨c, hc, hid.trans hid', hkind.trans hkind', ?_⟩
        rcases hsub' with hsub' | ⟨hfreed, hno⟩
        · rw [hsub']
          exact hsub
        · exact .inr ⟨hid ▸ hfreed, hno⟩
      · refine .inr ⟨hid' ▸ hnew, fun hyes => ?_⟩
        rw [← hkind']
        rcases hsub' with hsub' | ⟨-, hno⟩
        · exact hcal (hsub' ▸ hyes)
        · rw [hno] at hyes
          cases hyes
    · exact .inr ⟨h.seq.trans_lt hnew, hcal⟩

variable {id : Int}

/-- A collection is made. -/
theorem Frame.append (h : db.Wf) {c : DavCollection} (hid : c.id = id)
    (hnew : id = db.collectionSeq + 1) (hcal : c.subscribed = true → c.kind = .calendar) :
    Frame freed db { db with collections := db.collections ++ [c], collectionSeq := id } := by
  subst hid
  have hfol := (Did.create hnew).follows h
  refine ⟨hfol.wf, hfol.seq, fun _ h => h, ?_⟩
  intro c' hc'
  rcases List.mem_append.1 hc' with hc' | hc'
  · exact .inl ⟨c', hc', rfl, rfl, .inl rfl⟩
  · rw [List.mem_singleton.1 hc']
    exact .inr ⟨by omega, hcal⟩

/-- Collections are written. -/
theorem Frame.map (h : db.Wf) {f : DavCollection → DavCollection} (hid : ∀ c, (f c).id = c.id)
    (hkind : ∀ c, (f c).kind = c.kind) (hchange : ∀ c, c.change ≤ (f c).change)
    (hsub : ∀ c, (f c).subscribed = c.subscribed ∨ (freed c.id ∧ (f c).subscribed = false)) :
    Frame freed db { db with collections := db.collections.map f } := by
  refine ⟨h.mapCollections hid hchange, le_rfl, fun _ h => h, ?_⟩
  intro c' hc'
  obtain ⟨c, hc, rfl⟩ := List.mem_map.1 hc'
  exact .inl ⟨c, hc, (hid c).symm, (hkind c).symm, hsub c⟩

theorem Frame.update (h : db.Wf) (id : Int) {f : DavCollection → DavCollection} (hid : ∀ c, (f c).id = c.id)
    (hkind : ∀ c, (f c).kind = c.kind) (hchange : ∀ c, c.change ≤ (f c).change)
    (hsub : ∀ c, c.id = id → (f c).subscribed = c.subscribed ∨ (freed c.id ∧ (f c).subscribed = false)) :
    Frame freed db (db.updateCollection id f) := by
  refine Frame.map h (f := fun c => if c.id == id then f c else c) ?_ ?_ ?_ ?_ <;> intro c <;>
    by_cases hc : c.id = id <;> simp [hc, hid, hkind, hchange]
  rw [← hc]
  exact hsub c hc

theorem Frame.nextChange (h : db.Wf) {n : Nat} (hdb : Dav.nextChange id db = .ok (n, db')) :
    Frame freed db db' := by
  obtain ⟨-, -, -, rfl⟩ := nextChange_ok hdb
  exact Frame.update h id (fun _ => rfl) (fun _ => rfl) (fun _ => Nat.le_succ _) fun _ _ => .inl rfl

theorem Frame.delete (h : db.Wf) (p : DavCollection → Bool) : Frame freed db (db.deleteCollections p) := by
  have hfol := (@Did.drop db p).follows h
  refine ⟨hfol.wf, hfol.seq, fun r hr => (mem_deleteWhere.1 hr).1, ?_⟩
  intro c hc
  exact .inl ⟨c, (mem_deleteWhere.1 hc).1, rfl, rfl, .inl rfl⟩

theorem Frame.inserted (h : db.Wf) {account : Int} {kind : DavKind} {new : NewDavCollection} {now id : Int}
    (hins : insertCollection account kind new now db = .ok (id, db')) : Frame freed db db' := by
  obtain ⟨row, hrow⟩ := Collections.inserted hins
  rw [hrow.eq]
  exact Frame.append h hrow.id hrow.next fun hyes => by simp [hrow.plain.1] at hyes

theorem Frame.makeFirst (h : db.Wf) {account : Int} {kind : DavKind} {sort : DavCollection → Bool}
    {fresh : NewDavCollection} {now : Int}
    (hmake : Collections.makeFirst account kind sort fresh now db = .ok db') : Frame freed db db' := by
  unfold Collections.makeFirst at hmake
  split at hmake
  · cases hmake
    exact .refl h
  · cases hins : insertCollection account kind fresh now db with
    | error e =>
      rw [hins] at hmake
      cases hmake
    | ok r =>
      rw [hins] at hmake
      cases hmake
      exact .inserted h hins

theorem Frame.applyUpdate (h : db.Wf) {update : DavCollectionUpdate}
    (hdb : applyCollectionUpdate id update db = .ok db') : Frame freed db db' := by
  unfold applyCollectionUpdate at hdb
  obtain ⟨⟨n, db₁⟩, hnext, heq⟩ := except_bind_ok hdb
  cases heq
  have hfirst : Frame freed db _ := Frame.update h id (f := fun c =>
    { c with
      displayName := (update.displayName.map trim).getD c.displayName
      description := (update.description.map trim).getD c.description
      color := update.color.getD c.color
      sortOrder := update.sortOrder.getD c.sortOrder
      timezone := update.timezone.getD c.timezone
      isVisible := update.isVisible.getD c.isVisible })
    (fun _ => rfl) (fun _ => rfl) (fun _ => le_rfl) fun _ _ => .inl rfl
  exact hfirst.trans (.nextChange hfirst.wf hnext)

theorem Frame.setDefault (h : db.Wf) (c : DavCollection) : Frame freed db (Collections.setDefault c db) := by
  cases hdef : c.isDefault with
  | true =>
    unfold Collections.setDefault
    rw [if_pos hdef]
    exact .refl h
  | false =>
    have heq : Collections.setDefault c db = { db with collections := db.collections.map (flagged c) } := by
      have := @setDefault_collections _ db hdef
      unfold Collections.setDefault at this ⊢
      rw [if_neg (by simp [hdef])] at this ⊢
      simp only [Db.updateCollection] at this ⊢
      rw [this]
    rw [heq]
    exact Frame.map h (fun _ => rfl) (fun _ => rfl) (fun _ => le_rfl) fun _ => .inl rfl

theorem Frame.ensureDefault (h : db.Wf) (account : Int) (kind : DavKind) :
    Frame freed db (Collections.ensureDefault account kind db) := by
  rcases ensureDefault_cases account kind db with ⟨heq, -⟩ | ⟨c, -, -, -, -, -, heq⟩
  · rw [heq]
    exact .refl h
  · rw [heq]
    exact Frame.update h c.id (fun _ => rfl) (fun _ => rfl) (fun _ => le_rfl) fun _ _ => .inl rfl

theorem Frame.deleteCollection {w : Collections.World} (h : w.db.Wf) (c : DavCollection) :
    Frame freed w.db (Collections.deleteCollection c w).db := by
  unfold Collections.deleteCollection
  simp only
  have hdel : Frame freed w.db (w.db.deleteCollections fun d => d.id == c.id) := .delete h _
  split
  · exact hdel.trans (.ensureDefault hdel.wf _ _)
  · exact hdel

theorem Frame.weaken {freed' : Int → Prop} (h : Frame freed db db')
    (hfreed : ∀ c' ∈ db'.collections, freed c'.id → freed' c'.id) : Frame freed' db db' where
  wf := h.wf
  seq := h.seq
  resources := h.resources
  collections := by
    intro c' hc'
    rcases h.collections c' hc' with ⟨c, hc, hid, hkind, hsub⟩ | hnew
    · refine .inl ⟨c, hc, hid, hkind, hsub.imp id ?_⟩
      rintro ⟨hf, hno⟩
      exact ⟨hid ▸ hfreed c' hc' (hid ▸ hf), hno⟩
    · exact .inr hnew

theorem deleteCollection_id {w : Collections.World} {c : DavCollection} :
    ∀ c' ∈ (Collections.deleteCollection c w).db.collections, c'.id ≠ c.id := by
  have hrest : ∀ d ∈ (w.db.deleteCollections fun d => d.id == c.id).collections, d.id ≠ c.id := by
    intro d hd
    simpa using (mem_deleteWhere.1 hd).2
  intro c' hc'
  unfold Collections.deleteCollection at hc'
  simp only at hc'
  split at hc'
  · rcases ensureDefault_cases c.accountId c.kind (w.db.deleteCollections fun d => d.id == c.id) with
      ⟨heq, -⟩ | ⟨c₁, -, -, -, -, -, heq⟩
    · rw [heq] at hc'
      exact hrest c' hc'
    · rw [heq] at hc'
      obtain ⟨d, hd, rfl⟩ := List.mem_map.1 hc'
      split
      · exact hrest d hd
      · exact hrest d hd
  · exact hrest c' hc'

/-- The calendar whose subscription a call ends, where the calendar stays. -/
def freedBy (w : Collections.World) (e : Collections.Event) (id : Int) : Prop :=
  match e with
  | .unsubscribe account subscription keepEntries => keepEntries = true ∧
      ∃ s ∈ w.subscriptions, s.id = subscription ∧ s.accountId = account ∧ s.collectionId = id
  | _ => False

section Calls

variable {digest : String → String} {w w' : Collections.World}

theorem frame_subscribe {account : Int} {new : NewCalendarSubscription} {fresh : NewDavCollection} {now : Int}
    (h : w.db.Wf) (hcall : createCalendarSubscription digest account new fresh now w = .ok w') :
    Frame freed w.db w'.db := by
  unfold createCalendarSubscription at hcall
  split at hcall
  · cases hcall
  split at hcall
  · cases hcall
  split at hcall
  · cases hcall
  obtain ⟨db₁, hmake, hcall⟩ := except_bind_ok hcall
  obtain ⟨⟨id, db₂⟩, hins, hcall⟩ := except_bind_ok hcall
  cases hcall
  have hfirst : Frame freed w.db db₁ := .makeFirst h hmake
  obtain ⟨row, hrow⟩ := Collections.inserted hins
  have hdb : (db₂.updateCollection id fun c => { c with subscribed := true }) =
      { db₁ with collections := db₁.collections ++ [{ row with subscribed := true }], collectionSeq := id } := by
    have := updateWhere_append_new (fun c => { c with subscribed := true }) hrow.id
      (hrow.other hfirst.wf.known)
    rw [hrow.eq]
    simp only [Db.updateCollection]
    rw [this]
  simp only [hdb]
  refine hfirst.trans (Frame.append hfirst.wf hrow.id hrow.next fun _ => ?_)
  exact (ofKind_iff.1 hrow.belongs).2

theorem frame_unsubscribe {account id : Int} {keepEntries : Bool} (h : w.db.Wf)
    (hcall : deleteCalendarSubscription account id keepEntries w = .ok w') :
    Frame (freedBy w (.unsubscribe account id keepEntries)) w.db w'.db := by
  unfold deleteCalendarSubscription at hcall
  split at hcall
  · cases hcall
  rename_i s hfind
  have hs := List.mem_of_find?_eq_some hfind
  have hsid := List.find?_some hfind
  simp only [Bool.and_eq_true, beq_iff_eq] at hsid
  have hfree : Frame (fun i => i = s.collectionId) w.db
      (w.db.updateCollection s.collectionId fun c => { c with subscribed := false }) :=
    .update h _ (fun _ => rfl) (fun _ => rfl) (fun _ => le_rfl) fun c hc => .inr ⟨hc, rfl⟩
  obtain ⟨c, hown, hcall⟩ := except_bind_ok hcall
  split at hcall
  · rename_i hkeep
    obtain ⟨⟨n, db⟩, hnext, heq⟩ := except_bind_ok hcall
    cases heq
    refine (hfree.trans (.nextChange hfree.wf hnext)).weaken ?_
    intro c' _ hc'
    exact ⟨hkeep, s, hs, hsid.1, hsid.2, hc'.symm⟩
  · cases hcall
    have hcid := (ownCollection_ok hown).2.1
    have hdel := @Frame.deleteCollection (fun i => i = s.collectionId)
      ⟨_, deleteWhere (fun s => s.id == id) w.subscriptions⟩ hfree.wf c
    refine (hfree.trans hdel).weaken ?_
    -- The calendar is gone.
    intro c' hc' hid
    exact absurd (hid.trans hcid.symm) (deleteCollection_id c' hc')

theorem frame_birthdays {account : Int} {name color random : String} {now : Int} (h : w.db.Wf)
    (hcall : createBirthdayCalendar account name color random now w = .ok w') :
    Frame freed w.db w'.db := by
  unfold createBirthdayCalendar at hcall
  split at hcall
  · cases hcall
    exact .refl h
  obtain ⟨⟨id, db⟩, hins, hcall⟩ := except_bind_ok hcall
  cases hcall
  have hnew : Frame freed w.db db := .inserted h hins
  have hflag : Frame freed db (db.updateCollection id fun c => { c with isDefault := false }) :=
    .update hnew.wf _ (fun _ => rfl) (fun _ => rfl) (fun _ => le_rfl) fun _ _ => .inl rfl
  exact (hnew.trans hflag).trans
    (.update hflag.wf _ (fun _ => rfl) (fun _ => rfl) (fun _ => le_rfl) fun _ _ => .inl rfl)

/-- **A transaction on the collections.** -/
theorem frame_call {e : Collections.Event} (h : w.db.Wf) (hcall : e.call digest w = .ok w')
    (hentries : ∀ resources tombstones, e ≠ .entries resources tombstones) :
    Frame (freedBy w e) w.db w'.db := by
  cases e with
  | list account kind fresh now =>
    obtain ⟨db, hmake, heq⟩ := except_bind_ok hcall
    cases heq
    exact .makeFirst h hmake
  | create account kind new now =>
    obtain ⟨⟨id, db⟩, hins, heq⟩ := except_bind_ok hcall
    cases heq
    exact .inserted h hins
  | createWith account kind new changes now =>
    obtain ⟨⟨id, db⟩, hins, hcall⟩ := except_bind_ok hcall
    obtain ⟨db', hupd, heq⟩ := except_bind_ok hcall
    cases heq
    have hnew : Frame (freedBy w (.createWith account kind new changes now)) w.db db := .inserted h hins
    exact hnew.trans (.applyUpdate hnew.wf hupd)
  | update account id changes =>
    obtain ⟨c, -, hcall⟩ := except_bind_ok hcall
    obtain ⟨db', hupd, heq⟩ := except_bind_ok hcall
    cases heq
    exact .applyUpdate h hupd
  | setDefaultCalendar account id =>
    obtain ⟨c, -, hcall⟩ := except_bind_ok hcall
    obtain ⟨u, -, heq⟩ := except_bind_ok hcall
    cases heq
    exact .setDefault h c
  | setDefaultAddressBook account id =>
    obtain ⟨c, -, heq⟩ := except_bind_ok hcall
    cases heq
    exact .setDefault h c
  | destroyCalendar account id withEvents =>
    obtain ⟨c, -, hcall⟩ := except_bind_ok hcall
    obtain ⟨u, -, hcall⟩ := except_bind_ok hcall
    split at hcall
    · cases hcall
    split at hcall
    · cases hcall
    cases hcall
    exact .deleteCollection h c
  | destroyAddressBook account id withContents =>
    obtain ⟨c, -, hcall⟩ := except_bind_ok hcall
    split at hcall
    · cases hcall
    split at hcall
    · cases hcall
    cases hcall
    exact .deleteCollection h c
  | delete account id =>
    obtain ⟨c, -, hcall⟩ := except_bind_ok hcall
    obtain ⟨u, -, heq⟩ := except_bind_ok hcall
    cases heq
    exact .deleteCollection h c
  | importInto account kind base new fresh now =>
    obtain ⟨db, hmake, hcall⟩ := except_bind_ok hcall
    obtain ⟨⟨id, db'⟩, hins, heq⟩ := except_bind_ok hcall
    cases heq
    have hfirst : Frame (freedBy w (.importInto account kind base new fresh now)) w.db db :=
      .makeFirst h hmake
    exact hfirst.trans (.inserted hfirst.wf hins)
  | subscribe account new fresh now => exact frame_subscribe h hcall
  | unsubscribe account id keepEntries => exact frame_unsubscribe h hcall
  | birthdays account name color random now => exact frame_birthdays h hcall
  | entries resources tombstones => exact absurd rfl (hentries resources tombstones)

theorem frame_step {e : Collections.Event} (h : w.db.Wf) (hstep : Collections.step digest w e = some w')
    (hentries : ∀ resources tombstones, e ≠ .entries resources tombstones) :
    Frame (freedBy w e) w.db w'.db := by
  unfold Collections.step at hstep
  split at hstep
  · rename_i w₁ hcall
    cases hstep
    exact frame_call h hcall hentries
  · cases hstep
    exact .refl h

end Calls

/-! ## 2. What a person may write -/

/-- The entries of a subscribed calendar may go or be marked, and that is all. -/
structure Edit (db db' : Db) : Prop where
  wf : db'.Wf
  seq : db'.collectionSeq = db.collectionSeq
  collections : ∀ c' ∈ db'.collections, ∃ c ∈ db.collections, c.id = c'.id ∧ c.kind = c'.kind ∧
    c'.subscribed = c.subscribed
  resources : ∀ c ∈ db.collections, c.subscribed = true → ∀ r' ∈ db'.resources, r'.collectionId = c.id →
    ∃ r ∈ db.resources, r.collectionId = c.id ∧ r.name = r'.name ∧ r.uid = r'.uid

theorem Edit.refl (h : db.Wf) : Edit db db :=
  ⟨h, rfl, fun c hc => ⟨c, hc, rfl, rfl, rfl⟩, fun _ _ _ r hr hid => ⟨r, hr, hid, rfl, rfl⟩⟩

theorem bump_collections (id : Int) : ∀ c' ∈ (db.bump id).collections, ∃ c ∈ db.collections,
    c.id = c'.id ∧ c.kind = c'.kind ∧ c'.subscribed = c.subscribed := by
  intro c' hc'
  obtain ⟨c, hc, rfl⟩ := Db.mem_updateCollection.1 hc'
  refine ⟨c, hc, ?_⟩
  split
  · exact ⟨rfl, rfl, rfl⟩
  · exact ⟨rfl, rfl, rfl⟩

variable {draws : List String}

section Entries

variable {digest : String → String} {collection target : DavCollection} {write : DavWrite}
  {condition : DavPrecondition} {now : Int}

/-- What storing an entry writes: nothing, or one row under the next number, whose UID no other name
has. -/
theorem putEntryUnchecked_ok {a : DavWriteOutcome × Option Int}
    (h : putEntryUnchecked digest collection write condition now db = .ok (a, db')) : db' = db ∨
      (∀ r ∈ db.resources, r.collectionId = collection.id → r.uid = write.uid → r.name = write.name) ∧
      ∃ n, db.Stands collection.id n ∧ db' = (db.bump collection.id).place
        (entryRow digest collection.id write (withoutControls write.content) now (n + 1)) := by
  unfold putEntryUnchecked at h
  simp only at h
  split at h
  · cases h
    exact .inl rfl
  split at h
  · cases h
    exact .inl rfl
  rename_i hother
  split at h
  · cases h
  · obtain ⟨⟨n, db₁⟩, hnext, h⟩ := except_bind_ok h
    obtain ⟨m, hm, rfl, rfl⟩ := nextChange_ok hnext
    cases h
    refine .inr ⟨?_, m, hm, rfl⟩
    intro r hr hid huid
    have := List.find?_eq_none.1 hother r hr
    simpa [hid, huid] using this

theorem deleteEntryUnchecked_ok (hwf : db.Wf) {name : String} {ifMatch : Option String} {a : Bool}
    (h : deleteEntryUnchecked collection name ifMatch db = .ok (a, db')) : db' = db ∨
      ∃ r ∈ db.resources, r.key = (collection.id, name) ∧ ∃ n, db.Stands collection.id n ∧
        db' = (db.bump collection.id).bury r (n + 1) := by
  unfold deleteEntryUnchecked at h
  split at h
  · cases h
    exact .inl rfl
  rename_i r hr
  split at h
  · cases h
    exact .inl rfl
  obtain ⟨hmem, hkey⟩ := hwf.resource_eq_some.1 hr
  obtain ⟨⟨n, db₁⟩, hnext, h⟩ := except_bind_ok h
  obtain ⟨m, hm, rfl, rfl⟩ := nextChange_ok hnext
  cases h
  obtain ⟨hid, rfl⟩ := Prod.ext_iff.1 hkey
  refine .inr ⟨r, hmem, hkey, m, hm, ?_⟩
  unfold Db.bury
  rw [show r.collectionId = collection.id from hid]
  rfl

/-- Two collections of one id are one. -/
theorem not_subscribed_of_writable (hwf : db.Wf) {u : PUnit} (hc : collection ∈ db.collections)
    (hw : checkEntriesWritable collection = .ok u) :
    ∀ c ∈ db.collections, c.subscribed = true → collection.id ≠ c.id := by
  intro c hmem hsub hid
  rw [← hwf.collections.eq hc hmem hid, (checkEntriesWritable_ok hw).1] at hsub
  cases hsub

theorem edit_put (hwf : db.Wf) {a : DavWriteOutcome × Option Int} (hc : collection ∈ db.collections)
    (h : putEntry digest collection write condition now db = .ok (a, db')) : Edit db db' := by
  have hwf' := ((did_putEntry h).follows hwf).wf
  obtain ⟨u, hw, h⟩ := except_bind_ok h
  rcases putEntryUnchecked_ok h with rfl | ⟨-, n, -, rfl⟩
  · exact .refl hwf
  · refine ⟨hwf', by simp [Db.bump, Db.updateCollection], ?_, ?_⟩
    · rw [Db.place_collections]
      exact bump_collections collection.id
    · intro c hcmem hsub r' hr' hid
      obtain ⟨⟨i, d, hmem⟩, -⟩ := (hwf.bump collection.id).upserted
        (entryRow digest collection.id write (withoutControls write.content) now (n + 1))
      rcases (hmem r').1 hr' with rfl | ⟨hr, -⟩
      · exact absurd hid (not_subscribed_of_writable hwf hc hw c hcmem hsub)
      · exact ⟨r', hr, hid, rfl, rfl⟩

theorem edit_delete (hwf : db.Wf) {name : String} {ifMatch : Option String} {a : Bool}
    (h : deleteEntry collection name ifMatch db = .ok (a, db')) : Edit db db' := by
  have hwf' := ((did_deleteEntry hwf h).follows hwf).wf
  obtain ⟨u, -, h⟩ := except_bind_ok h
  rcases deleteEntryUnchecked_ok hwf h with rfl | ⟨r, -, -, n, -, rfl⟩
  · exact .refl hwf
  · refine ⟨hwf', rfl, bump_collections collection.id, ?_⟩
    intro c _ _ r' hr' hid
    exact ⟨r', (mem_deleteWhere.1 hr').1, hid, rfl, rfl⟩

/-- Moving an entry. -/
theorem edit_move (hwf : db.Wf) {r : DavResource} {extension : String} {a : String}
    (hr : r ∈ db.resources) (htarget : target ∈ db.collections)
    (hname : write.name = r.name) (hne : target.id ≠ r.collectionId)
    (h : moveEntry digest r.id r.collectionId target write extension draws now db = some (.ok (a, db'))) :
    Edit db db' := by
  obtain ⟨name, hfree, hwrites⟩ := moveEntry_ok h
  have hwf' := ((did_moveWrites hr hname hne hfree hwrites).follows hwf).wf
  have hw : ∃ u, checkEntriesWritable target = .ok u := by
    unfold moveEntry at h
    split at h
    · cases h
    rename_i hchecks
    obtain ⟨u, hu, -⟩ := except_bind_ok hchecks
    exact ⟨u, hu⟩
  obtain ⟨u, hw⟩ := hw
  unfold moveWrites at hwrites
  simp only at hwrites
  split at hwrites
  · cases hwrites
  obtain ⟨⟨n, db₁⟩, hnext, hwrites⟩ := except_bind_ok hwrites
  obtain ⟨m, -, -, rfl⟩ := nextChange_ok hnext
  obtain ⟨⟨n', db₂⟩, hnext', hwrites⟩ := except_bind_ok hwrites
  obtain ⟨m', -, -, rfl⟩ := nextChange_ok hnext'
  cases hwrites
  refine ⟨hwf', rfl, ?_, ?_⟩
  · intro c' hc'
    obtain ⟨c₁, hc₁, hid₁, hkind₁, hsub₁⟩ := @bump_collections
      ((db.bump r.collectionId).putTombstone _) _ c' hc'
    obtain ⟨c, hc, hid, hkind, hsub⟩ := bump_collections _ c₁ hc₁
    exact ⟨c, hc, hid.trans hid₁, hkind.trans hkind₁, hsub₁.trans hsub⟩
  · intro c hc hsub r' hr' hid
    obtain ⟨r₀, hr₀, rfl⟩ := mem_updateWhere.1 hr'
    split at hid
    · exact absurd hid (not_subscribed_of_writable hwf htarget hw c hc hsub)
    · rename_i hno
      rw [if_neg hno]
      exact ⟨r₀, hr₀, hid, rfl, rfl⟩

theorem edit_store (hwf : db.Wf) {id targetId : Int} {extension : String} {a : String}
    (h : storeEntry digest id targetId write extension draws now db = some (.ok (a, db'))) :
    Edit db db' := by
  unfold storeEntry at h
  split at h
  · rename_i target r htarget hfound
    obtain ⟨hr, rfl⟩ := hwf.ids.find?_eq_some_iff.1 hfound
    have hmem := (hwf.collection_eq_some.1 htarget).1
    simp only at h
    split at h
    · split at h
      · rename_i hput
        cases h
        exact edit_put hwf hmem hput
      · cases h
      · cases h
    · rename_i hne
      exact edit_move hwf hr hmem rfl (fun heq => hne (by simp [heq])) h
  · cases h

theorem edit_commit {α : Type} {x : Except StoreError (α × Db)} (hwf : db.Wf)
    (h : ∀ a db', x = .ok (a, db') → Edit db db') : Edit db (commit db x) := by
  cases x with
  | error e => exact .refl hwf
  | ok v => exact h v.1 v.2 rfl

theorem edit_within {α : Type} {f : DavCollection → Except StoreError (α × Db)} (hwf : db.Wf)
    (h : ∀ c ∈ db.collections, ∀ a db', f c = .ok (a, db') → Edit db db') : Edit db (within id db f) := by
  refine edit_commit hwf fun a db' hok => ?_
  obtain ⟨c, hown, hok⟩ := except_bind_ok hok
  exact h c (ownCollection_ok hown).1 a db' hok

/-- **A person's write.** -/
theorem edit_step (hwf : db.Wf) {e : Dav.Event} (huser : byUser e = true)
    (h : Dav.step digest db e = some db') : Edit db db' := by
  cases e with
  | put id write condition now =>
    cases h
    exact edit_within hwf fun _ hc _ _ hok => edit_put hwf hc hok
  | delete id name ifMatch =>
    cases h
    exact edit_within hwf fun _ _ _ _ hok => edit_delete hwf hok
  | store id targetId write extension draws now =>
    obtain ⟨x, hx, rfl⟩ := Option.map_eq_some_iff.1 h
    exact edit_commit hwf fun a db' hok => edit_store hwf (hx.trans (congrArg some hok))
  | mark id scheduleTag draft =>
    have hwf' := ((step_did hwf h).follows hwf).wf
    cases h
    refine ⟨hwf', rfl, fun c hc => ⟨c, hc, rfl, rfl, rfl⟩, ?_⟩
    intro c _ _ r' hr' hid
    obtain ⟨r, hr, rfl⟩ := mem_updateWhere.1 hr'
    split at hid
    · rename_i hyes
      rw [if_pos hyes]
      exact ⟨r, hr, hid, rfl, rfl⟩
    · rename_i hno
      rw [if_neg hno]
      exact ⟨r, hr, hid, rfl, rfl⟩
  | create | drop | update | fill | putUnchecked | deleteUnchecked => cases huser

end Entries

/-! ## 3. What a run may write -/

/-- Each UID is in the calendar once. -/
def OnceIn (db : Db) (id : Int) : Prop := ∀ r ∈ db.resources, ∀ r' ∈ db.resources,
  r.collectionId = id → r'.collectionId = id → r.uid = r'.uid → r.name = r'.name

theorem OnceIn.eq (h : OnceIn db id) (hwf : db.Wf) {r r' : DavResource} (hr : r ∈ db.resources)
    (hr' : r' ∈ db.resources) (hid : r.collectionId = id) (hid' : r'.collectionId = id)
    (huid : r.uid = r'.uid) : r = r' := by
  refine hwf.names.eq hr hr' ?_
  unfold DavResource.key
  rw [hid, hid', h r hr r' hr' hid hid' huid]

/-- One calendar is written, and each UID stays in it once. -/
structure Fed (id : Int) (db db' : Db) : Prop where
  wf : db'.Wf
  seq : db'.collectionSeq = db.collectionSeq
  collections : ∀ c' ∈ db'.collections, ∃ c ∈ db.collections, c.id = c'.id ∧ c.kind = c'.kind ∧
    c'.subscribed = c.subscribed
  there : (∃ c ∈ db.collections, c.id = id) → ∃ c ∈ db'.collections, c.id = id
  others : ∀ r, r.collectionId ≠ id → (r ∈ db'.resources ↔ r ∈ db.resources)
  once : OnceIn db id → OnceIn db' id

theorem Fed.refl (h : db.Wf) : Fed id db db :=
  ⟨h, rfl, fun c hc => ⟨c, hc, rfl, rfl, rfl⟩, fun h => h, fun _ _ => Iff.rfl, fun h => h⟩

theorem Fed.trans (h : Fed id db db') (h' : Fed id db' db'') : Fed id db db'' where
  wf := h'.wf
  seq := h'.seq.trans h.seq
  collections := by
    intro c'' hc''
    obtain ⟨c', hc', hid', hkind', hsub'⟩ := h'.collections c'' hc''
    obtain ⟨c, hc, hid, hkind, hsub⟩ := h.collections c' hc'
    exact ⟨c, hc, hid.trans hid', hkind.trans hkind', hsub'.trans hsub⟩
  there := fun hc => h'.there (h.there hc)
  others := fun r hr => (h'.others r hr).trans (h.others r hr)
  once := fun ho => h'.once (h.once ho)

theorem there_bump {id i : Int} (h : ∃ c ∈ db.collections, c.id = id) :
    ∃ c ∈ (db.bump i).collections, c.id = id := by
  obtain ⟨c, hc, rfl⟩ := h
  refine ⟨_, Db.mem_updateCollection.2 ⟨c, hc, rfl⟩, ?_⟩
  split <;> rfl

section Runs

variable {digest : String → String} {collection : DavCollection} {now : Int}

/-- The rows after an entry was placed. -/
theorem mem_place (hwf : db.Wf) (row : DavResource) (id : Int) : ∃ i d, ∀ r,
    r ∈ ((db.bump id).place row).resources ↔ r = { row with id := i, draft := d } ∨
      r ∈ db.resources ∧ r.key ≠ row.key := by
  obtain ⟨⟨i, d, hmem⟩, -⟩ := (hwf.bump id).upserted row
  exact ⟨i, d, hmem⟩

theorem fed_place (hwf : db.Wf) {write : DavWrite} {content : String} {n : Nat}
    (hn : db.Stands collection.id n)
    (huid : ∀ r ∈ db.resources, r.collectionId = collection.id → r.uid = write.uid → r.name = write.name) :
    Fed collection.id db ((db.bump collection.id).place
      (entryRow digest collection.id write content now (n + 1))) := by
  let row := entryRow digest collection.id write content now (n + 1)
  obtain ⟨i, d, hmem⟩ := mem_place hwf row collection.id
  have hwf' := ((@Did.write _ row _ hn rfl).follows hwf).wf
  refine ⟨hwf', by simp [Db.bump, Db.updateCollection], ?_, ?_, ?_, ?_⟩
  · rw [Db.place_collections]
    exact bump_collections collection.id
  · intro h
    rw [Db.place_collections]
    exact there_bump h
  · intro r hr
    rw [hmem]
    constructor
    · rintro (rfl | ⟨hr', -⟩)
      · exact absurd rfl hr
      · exact hr'
    · exact fun hr' => .inr ⟨hr', fun hk => hr (congrArg Prod.fst hk)⟩
  · intro honce r hr r' hr' hid hid' heq
    rcases (hmem r).1 hr with rfl | ⟨hr, -⟩ <;> rcases (hmem r').1 hr' with rfl | ⟨hr', -⟩
    · rfl
    · exact (huid r' hr' hid' heq.symm).symm
    · exact huid r hr hid heq
    · exact honce r hr r' hr' hid hid' heq

theorem fed_put (hwf : db.Wf) {write : DavWrite} {condition : DavPrecondition}
    {a : DavWriteOutcome × Option Int}
    (h : putEntryUnchecked digest collection write condition now db = .ok (a, db')) :
    Fed collection.id db db' := by
  rcases putEntryUnchecked_ok h with rfl | ⟨huid, n, hn, rfl⟩
  · exact .refl hwf
  · exact fed_place hwf hn huid

theorem fed_delete (hwf : db.Wf) {name : String} {ifMatch : Option String} {a : Bool}
    (h : deleteEntryUnchecked collection name ifMatch db = .ok (a, db')) : Fed collection.id db db' := by
  have hwf' := ((did_deleteEntryUnchecked hwf h).follows hwf).wf
  rcases deleteEntryUnchecked_ok hwf h with rfl | ⟨r, hr, hkey, n, -, rfl⟩
  · exact .refl hwf
  · have hmem := fun r' => @Db.Wf.mem_bury _ r (hwf.bump collection.id) hr (n + 1) r'
    refine ⟨hwf', rfl, bump_collections collection.id, there_bump, ?_, ?_⟩
    · intro r' hr'
      rw [hmem]
      refine and_iff_left_of_imp fun _ hk => hr' ?_
      rw [hkey] at hk
      exact congrArg Prod.fst hk
    · intro honce r₁ hr₁ r₂ hr₂
      exact honce r₁ ((hmem r₁).1 hr₁).1 r₂ ((hmem r₂).1 hr₂).1

theorem fed_deleteAll {names : List String} {report report' : DavMirrorReport} (hwf : db.Wf)
    (h : deleteAll collection names report db = .ok (report', db')) : Fed collection.id db db' := by
  induction names generalizing report db with
  | nil =>
    cases h
    exact .refl hwf
  | cons name names ih =>
    obtain ⟨⟨deleted, db₁⟩, hdel, h⟩ := except_bind_ok h
    have hfirst := fed_delete hwf hdel
    exact hfirst.trans (ih hfirst.wf h)

theorem fed_writeAll {run : MirrorRun} {writes : List (SplitObject × Checked)}
    {report report' : DavMirrorReport} (hwf : db.Wf)
    (h : writeAll digest run collection draws now writes report db = some (.ok (report', db'))) :
    Fed collection.id db db' := by
  induction writes generalizing report db with
  | nil =>
    cases h
    exact .refl hwf
  | cons write writes ih =>
    obtain ⟨object, checked⟩ := write
    unfold writeAll at h
    split at h
    · cases h
    split at h
    · rename_i hput
      have hfirst := fed_put hwf hput
      exact hfirst.trans (ih hfirst.wf h)
    · exact ih hwf h
    · cases h

/-- **The second half of a run**, whatever it read: it fails, or writes one calendar. -/
theorem fed_mirrorWrite {run : MirrorRun} {report : DavMirrorReport} (hwf : db.Wf)
    (h : mirrorWrite digest run draws now db = some (.ok (report, db'))) :
    Fed run.collectionId db db' := by
  unfold mirrorWrite at h
  split at h
  · cases h
  rename_i collection hown
  rw [← (ownCollection_ok hown).2.1]
  split at h
  · cases h
  rename_i report₁ db₁ hdel
  obtain ⟨result, hwrite, h⟩ := Option.map_eq_some_iff.1 h
  cases result with
  | error e => cases h
  | ok r =>
    cases h
    have hfirst := fed_deleteAll hwf hdel
    exact hfirst.trans (fed_writeAll hfirst.wf hwrite)

/-- A run that found nothing to change changes nothing. -/
theorem mirrorWrite_idle {run : MirrorRun} {result : Except StoreError (DavMirrorReport × Db)}
    (hgone : run.gone = []) (hwrites : run.writes = [])
      (h : mirrorWrite digest run draws now db = some result) :
    commit db result = db := by
  unfold mirrorWrite at h
  rw [hgone, hwrites] at h
  split at h
  · cases h
    rfl
  · simp only [deleteAll, writeAll, Option.map_some, Option.some.injEq] at h
    rw [← h]
    rfl

end Runs

/-! ## 4. What holds in every state -/

section States

variable {digest : String → String} {checks : Checks} {w w' : World} {e : Event}

structure Inv (w : World) : Prop where
  wf : w.calendars.db.Wf
  calendars : ∀ c ∈ w.calendars.db.collections, c.subscribed = true → c.kind = .calendar
  once : ∀ c ∈ w.calendars.db.collections, c.subscribed = true → OnceIn w.calendars.db c.id
  known : ∀ run ∈ w.runs, run.collectionId ≤ w.calendars.db.collectionSeq

theorem inv_empty : Inv {} :=
  ⟨wf_empty, by simp, by simp, by simp⟩

/-- Entries of a new calendar: there are none. -/
theorem Inv.no_entries (h : Inv w) (hnew : w.calendars.db.collectionSeq < id) :
    ∀ r ∈ w.calendars.db.resources, r.collectionId ≠ id := by
  intro r hr hid
  obtain ⟨c, hc, hcid, -⟩ := h.wf.live r hr
  have := h.wf.known c hc
  omega

theorem Inv.frame (h : Inv w) {freed : Int → Prop} {calendars : Collections.World}
    (hf : Frame freed w.calendars.db calendars.db) : Inv { w with calendars } where
  wf := hf.wf
  calendars := by
    intro c' hc' hsub'
    rcases hf.collections c' hc' with ⟨c, hc, hid, hkind, hsub⟩ | ⟨-, hcal⟩
    · rw [← hkind]
      refine h.calendars c hc ?_
      rcases hsub with hsub | ⟨-, hno⟩
      · rw [← hsub]
        exact hsub'
      · rw [hsub'] at hno
        cases hno
    · exact hcal hsub'
  once := by
    intro c' hc' hsub' r hr r' hr' hid hid'
    rcases hf.collections c' hc' with ⟨c, hc, hcid, -, hsub⟩ | ⟨hnew, -⟩
    · have hsub : c.subscribed = true := by
        rcases hsub with hsub | ⟨-, hno⟩
        · rw [← hsub]
          exact hsub'
        · rw [hsub'] at hno
          cases hno
      rw [← hcid] at hid hid'
      exact h.once c hc hsub r (hf.resources r hr) r' (hf.resources r' hr') hid hid'
    · exact absurd hid (h.no_entries hnew r (hf.resources r hr))
  known := fun run hr => (h.known run hr).trans hf.seq

theorem Inv.edit (h : Inv w) {db : Db} (he : Edit w.calendars.db db) :
    Inv { w with calendars := { w.calendars with db } } where
  wf := he.wf
  calendars := by
    intro c' hc' hsub'
    obtain ⟨c, hc, -, hkind, hsub⟩ := he.collections c' hc'
    rw [← hkind]
    exact h.calendars c hc (hsub ▸ hsub')
  once := by
    intro c' hc' hsub' r₁ hr₁ r₂ hr₂ hid₁ hid₂ huid
    obtain ⟨c, hc, hcid, -, hsub⟩ := he.collections c' hc'
    rw [← hcid] at hid₁ hid₂
    rw [hsub] at hsub'
    obtain ⟨s₁, hs₁, hsid₁, hname₁, huid₁⟩ := he.resources c hc hsub' r₁ hr₁ hid₁
    obtain ⟨s₂, hs₂, hsid₂, hname₂, huid₂⟩ := he.resources c hc hsub' r₂ hr₂ hid₂
    rw [← hname₁, ← hname₂]
    exact h.once c hc hsub' s₁ hs₁ s₂ hs₂ hsid₁ hsid₂ (huid₁.trans (huid.trans huid₂.symm))
  known := fun run hr => (h.known run hr).trans he.seq.ge

theorem Inv.fed (h : Inv w) {db : Db} (hf : Fed id w.calendars.db db) {runs : List MirrorRun}
    (hruns : ∀ run ∈ runs, run ∈ w.runs) : Inv { calendars := { w.calendars with db }, runs } where
  wf := hf.wf
  calendars := by
    intro c' hc' hsub'
    obtain ⟨c, hc, -, hkind, hsub⟩ := hf.collections c' hc'
    rw [← hkind]
    exact h.calendars c hc (hsub ▸ hsub')
  once := by
    intro c' hc' hsub'
    obtain ⟨c, hc, hcid, -, hsub⟩ := hf.collections c' hc'
    have honce := h.once c hc (hsub ▸ hsub')
    rw [hcid] at honce
    by_cases hid : c'.id = id
    · exact hid ▸ hf.once (hid ▸ honce)
    · intro r hr r' hr' hrid hrid'
      exact honce r ((hf.others r (by rw [hrid]; exact hid)).1 hr) r'
        ((hf.others r' (by rw [hrid']; exact hid)).1 hr') hrid hrid'
  known := fun run hr => (h.known run (hruns run hr)).trans hf.seq.ge

theorem commit_cases {α : Type} (db : Db) (x : Except StoreError (α × Db)) :
    (∃ e, x = .error e ∧ commit db x = db) ∨ ∃ a db', x = .ok (a, db') ∧ commit db x = db' := by
  cases x with
  | error e => exact .inl ⟨e, rfl, rfl⟩
  | ok v => exact .inr ⟨v.1, v.2, rfl, rfl⟩

/-- What a run writes, or nothing. -/
theorem fed_commit {run : MirrorRun} {now : Int} {db : Db} (hwf : db.Wf)
    {result : Except StoreError (DavMirrorReport × Db)}
      (h : mirrorWrite digest run draws now db = some result) :
    Fed run.collectionId db (commit db result) := by
  rcases commit_cases db result with ⟨e, rfl, heq⟩ | ⟨report, db', rfl, heq⟩
  · rw [heq]
    exact .refl hwf
  · rw [heq]
    exact fed_mirrorWrite hwf h

/-- A step of the collections leaves the runs. -/
theorem step_collections {w w' : World} {e : Collections.Event} (hstep : step digest checks w
    (.collections e) = some w') :
    (∀ resources tombstones, e ≠ .entries resources tombstones) ∧
      ∃ calendars, Collections.step digest w.calendars e = some calendars ∧ { w with calendars } = w' := by
  by_cases hentries : ∃ a b, e = .entries a b
  · obtain ⟨a, b, rfl⟩ := hentries
    cases hstep
  · have hne : ∀ a b, e ≠ .entries a b := fun a b heq => hentries ⟨a, b, heq⟩
    refine ⟨hne, Option.map_eq_some_iff.1 ?_⟩
    cases e <;> first | exact hstep | exact absurd rfl (hne _ _)

theorem inv_step (w : World) (e : Event) (w' : World) (h : Inv w)
    (hstep : step digest checks w e = some w') : Inv w' := by
  cases e with
  | collections e =>
    obtain ⟨hne, calendars, hcal, rfl⟩ := step_collections hstep
    exact h.frame (frame_step h.wf hcal hne)
  | entry e =>
    simp only [step] at hstep
    split at hstep
    · rename_i huser
      obtain ⟨db, hdb, rfl⟩ := Option.map_eq_some_iff.1 hstep
      exact h.edit (edit_step h.wf huser hdb)
    · cases hstep
  | read account collectionId objects =>
    simp only [step] at hstep
    split at hstep
    · rename_i run hread
      cases hstep
      refine ⟨h.wf, h.calendars, h.once, ?_⟩
      intro r hr
      rcases List.mem_append.1 hr with hr | hr
      · exact h.known r hr
      · rw [List.mem_singleton.1 hr]
        obtain ⟨c, hown, hread⟩ := except_bind_ok hread
        split at hread
        · cases hread
        · cases hread
          obtain ⟨hmem, hid, -⟩ := ownCollection_ok hown
          exact hid ▸ h.wf.known c hmem
    · cases hstep
      exact h
  | write i draws now =>
    simp only [step, Option.bind_eq_bind, Option.bind_eq_some_iff] at hstep
    obtain ⟨run, hrun, result, hresult, heq⟩ := hstep
    cases heq
    exact h.fed (fed_commit h.wf hresult) fun r hr => List.mem_of_mem_eraseIdx hr

/-! ## 5. Runs and unsubscribing -/

/-- The run found nothing to change. -/
def MirrorRun.Idle (run : MirrorRun) : Prop := run.gone = [] ∧ run.writes = []

instance (run : MirrorRun) : Decidable run.Idle := by
  unfold MirrorRun.Idle
  infer_instance

/-- **When feeds keep to their calendars.**  No subscription ends, its calendar staying, between the
two steps of a run of the calendar that found something to change. -/
def Kept (w : World) (e : Event) : Prop :=
  match e with
  | .collections (.unsubscribe account id true) => ∀ s ∈ w.calendars.subscriptions, s.id = id →
      s.accountId = account → ∀ run ∈ w.runs, run.collectionId = s.collectionId → run.Idle
  | _ => True

instance (w : World) (e : Event) : Decidable (Kept w e) := by
  unfold Kept
  split <;> infer_instance

/-- A run under way is of a subscribed calendar, or of one that is gone, or has nothing to do. -/
structure Tame (w : World) : Prop where
  inv : Inv w
  runs : ∀ run ∈ w.runs, ∀ c ∈ w.calendars.db.collections, c.id = run.collectionId →
    c.subscribed = true ∨ run.Idle

theorem tame_step (w : World) (e : Event) (w' : World) (h : Tame w) (hkept : Kept w e)
    (hstep : step digest checks w e = some w') : Tame w' := by
  refine ⟨inv_step w e w' h.inv hstep, ?_⟩
  cases e with
  | collections e =>
    obtain ⟨hne, calendars, hcal, rfl⟩ := step_collections hstep
    have hf := frame_step h.inv.wf hcal hne
    intro run hrun c' hc' hid'
    rcases hf.collections c' hc' with ⟨c, hc, hid, -, hsub⟩ | ⟨hnew, -⟩
    · rcases hsub with hsub | ⟨hfreed, -⟩
      · rw [hsub]
        exact h.runs run hrun c hc (hid.trans hid')
      · -- The subscription ends: the run has nothing to do.
        right
        cases e with
        | unsubscribe account id keepEntries =>
          obtain ⟨rfl, s, hs, hsid, hsacc, hscoll⟩ := hfreed
          exact hkept s hs hsid hsacc run hrun (hid'.symm.trans (hid.symm.trans hscoll.symm))
        | list | create | createWith | update | setDefaultCalendar | setDefaultAddressBook
        | destroyCalendar | destroyAddressBook | delete | importInto | subscribe | birthdays
        | entries => exact absurd hfreed fun hf => hf
    · have := h.inv.known run hrun
      omega
  | entry e =>
    simp only [step] at hstep
    split at hstep
    · rename_i huser
      obtain ⟨db, hdb, rfl⟩ := Option.map_eq_some_iff.1 hstep
      intro run hrun c' hc' hid'
      obtain ⟨c, hc, hid, -, hsub⟩ := (edit_step h.inv.wf huser hdb).collections c' hc'
      rw [hsub]
      exact h.runs run hrun c hc (hid.trans hid')
    · cases hstep
  | read account collectionId objects =>
    simp only [step] at hstep
    split at hstep
    · rename_i run₀ hread
      cases hstep
      intro run hrun c hc hid
      rcases List.mem_append.1 hrun with hrun | hrun
      · exact h.runs run hrun c hc hid
      · rw [List.mem_singleton.1 hrun] at hid
        obtain ⟨c₀, hown, hread⟩ := except_bind_ok hread
        split at hread
        · cases hread
        · rename_i hsub
          cases hread
          obtain ⟨hmem, hid₀, -⟩ := ownCollection_ok hown
          rw [h.inv.wf.collections.eq hc hmem (hid.trans hid₀.symm)]
          left
          simpa using hsub
    · cases hstep
      exact h.runs
  | write i draws now =>
    simp only [step, Option.bind_eq_bind, Option.bind_eq_some_iff] at hstep
    obtain ⟨run₀, hrun₀, result, hresult, heq⟩ := hstep
    cases heq
    intro run hrun c' hc' hid'
    obtain ⟨c, hc, hid, -, hsub⟩ := (fed_commit h.inv.wf hresult).collections c' hc'
    rw [hsub]
    exact h.runs run (List.mem_of_mem_eraseIdx hrun) c hc (hid.trans hid')

/-- A calendar that is not subscribed is not written. -/
theorem Tame.write (h : Tame w) {i : Nat} {now : Int}
    (hstep : step digest checks w (.write i draws now) = some w') {run : MirrorRun} (hrun : run ∈ w.runs[i]?)
    {c : DavCollection} (hc : c ∈ w.calendars.db.collections) (hid : c.id = run.collectionId)
    (hsub : c.subscribed = false) : w'.calendars = w.calendars := by
  simp only [step, Option.bind_eq_bind, Option.bind_eq_some_iff] at hstep
  obtain ⟨run₀, hrun₀, result, hresult, heq⟩ := hstep
  cases heq
  have : run₀ = run := Option.some.inj (hrun₀.symm.trans hrun)
  subst this
  rcases h.runs run₀ (List.mem_of_getElem? hrun₀) c hc hid with hyes | hidle
  · rw [hsub] at hyes
    cases hyes
  · rw [mirrorWrite_idle hidle.1 hidle.2 hresult]

end States

end UwuMail.Dav.Mirror
