/-
# A run that nothing falls into

A calendar whose run reads and writes with no other step in between mirrors its feed, always
(`mirrors_alone`).  Deleting first is what makes the names of the second part right: an entry the
feed still has keeps its row, and with it the name its UID is written under, until it is written
(`writeAll_spec`, by induction over what is written).

With `Feeds` this is the law of mirrored calendars (`mirror_when`).  Without the condition there it
fails (`mirror_fails`): a calendar that was subscribed when a run read it and is an ordinary one
when the run writes is CHANGED by the feed.
-/
import UwuMail.Dav.Feeds

namespace UwuMail.Dav.Mirror

open Table Store Collections

variable {digest : String → String} {checks : Checks} {collection : DavCollection} {now : Int}
  {db db' : Db}

/-! ## 1. Deleting -/

theorem nextChange_total {id : Int} (h : ∃ c ∈ db.collections, c.id = id) :
    ∃ n, db.Stands id n ∧ nextChange id db = .ok (n + 1, db.bump id) := by
  obtain ⟨c, hc, hid⟩ := h
  unfold nextChange
  cases hfind : db.collection id with
  | none => exact absurd (by simpa using hid) (List.find?_eq_none.1 hfind c hc)
  | some c' => exact ⟨c'.change, ⟨c', List.mem_of_find?_eq_some hfind,
    by simpa using List.find?_some hfind, rfl⟩, rfl⟩

theorem delete_total (hwf : db.Wf) (hthere : ∃ c ∈ db.collections, c.id = collection.id) (name : String) :
    ∃ a db', deleteEntryUnchecked collection name none db = .ok (a, db') ∧
      ∀ r, r ∈ db'.resources ↔ r ∈ db.resources ∧ r.key ≠ (collection.id, name) := by
  unfold deleteEntryUnchecked
  cases hfind : db.resource (collection.id, name) with
  | none =>
    refine ⟨false, db, rfl, fun r => ⟨fun hr => ⟨hr, ?_⟩, fun hr => hr.1⟩⟩
    exact Db.resource_eq_none.1 hfind r hr
  | some r =>
    obtain ⟨hmem, hkey⟩ := hwf.resource_eq_some.1 hfind
    obtain ⟨n, -, hnext⟩ := nextChange_total hthere
    refine ⟨true, _, by rw [hnext]; rfl, fun r' => ?_⟩
    have := @Db.Wf.mem_bury _ r (hwf.bump collection.id) hmem (n + 1) r'
    rw [hkey] at this
    exact this

theorem deleteAll_total (names : List String) (report : DavMirrorReport) (hwf : db.Wf)
    (hthere : ∃ c ∈ db.collections, c.id = collection.id) :
    ∃ report' db', deleteAll collection names report db = .ok (report', db') ∧
      ∀ r, r ∈ db'.resources ↔ r ∈ db.resources ∧ ¬ (r.collectionId = collection.id ∧ r.name ∈ names) := by
  induction names generalizing report db with
  | nil => exact ⟨report, db, rfl, fun r => by simp⟩
  | cons name names ih =>
    obtain ⟨a, db₁, hdel, hmem⟩ := delete_total hwf hthere name
    have hfed := fed_delete hwf hdel
    obtain ⟨report', db', hall, hmem'⟩ :=
      ih (if a then { report with deleted := report.deleted + 1 } else report) hfed.wf (hfed.there hthere)
    refine ⟨report', db', ?_, ?_⟩
    · unfold deleteAll
      rw [hdel]
      exact hall
    · intro r
      rw [hmem', hmem]
      simp only [DavResource.key, ne_eq, Prod.mk.injEq, List.mem_cons]
      tauto

/-! ## 2. Writing -/

/-- The rows of a UID in the calendar are the same. -/
def Same (id : Int) (uid : String) (db db' : Db) : Prop :=
  ∀ r, r.collectionId = id → r.uid = uid → (r ∈ db'.resources ↔ r ∈ db.resources)

theorem Same.trans {id : Int} {uid : String} {db'' : Db} (h : Same id uid db db')
    (h' : Same id uid db' db'') :
    Same id uid db db'' := fun r hid huid => (h' r hid huid).trans (h r hid huid)

/-- The calendar has the object as the feed has it. -/
def Written (id : Int) (object : SplitObject) (checked : Checked) (db : Db) : Prop :=
  ∃ r ∈ db.resources, r.collectionId = id ∧ r.uid = object.uid ∧ r.content = withoutControls object.content ∧
    r.component = checked.component ∧ r.startsAt = checked.startsAt ∧ r.endsAt = checked.endsAt

/-- The calendar is full, and never had the object. -/
def Full (id : Int) (uid : String) (db db' : Db) : Prop :=
  davResourcesPerCollection ≤ db'.count id ∧ (∀ r ∈ db.resources, r.collectionId = id → r.uid ≠ uid) ∧
    ∀ r ∈ db'.resources, r.collectionId = id → r.uid ≠ uid

theorem count_place (hwf : db.Wf) (row : DavResource) (i id : Int) :
    db.count id ≤ ((db.bump i).place row).count id := by
  have hcount : (db.bump i).count id = db.count id := rfl
  rw [← hcount]
  have hwf' := hwf.bump i
  generalize db.bump i = db₁ at hwf'
  unfold Db.count Db.place Db.upsert
  cases hold : db₁.resource row.key with
  | none =>
    simp only [Db.deleteTombstone, List.countP_append]
    omega
  | some old =>
    simp only [Db.deleteTombstone, updateWhere, List.countP_map]
    refine le_of_eq (List.countP_congr fun r _ => ?_)
    simp only [Function.comp_apply, beq_iff_eq]
    by_cases hk : r.key = row.key
    · rw [if_pos hk]
      rw [show r.collectionId = row.collectionId from congrArg Prod.fst hk]
    · rw [if_neg hk]

/-- An entry whose UID is under no other name is written, or the calendar is full. -/
theorem put_total (hthere : ∃ c ∈ db.collections, c.id = collection.id) {write : DavWrite}
    (huid : ∀ r ∈ db.resources, r.collectionId = collection.id → r.uid = write.uid → r.name = write.name) :
    (∃ a n, db.Stands collection.id n ∧
      putEntryUnchecked digest collection write {} now db = .ok (a, (db.bump collection.id).place
        (entryRow digest collection.id write (withoutControls write.content) now (n + 1)))) ∨
    (db.resource (collection.id, write.name) = none ∧ davResourcesPerCollection ≤ db.count collection.id ∧
      putEntryUnchecked digest collection write {} now db = .error .quotaExceeded) := by
  have hother : (db.resources.find? fun r =>
      r.collectionId == collection.id && r.uid == write.uid && r.name != write.name) = none := by
    rw [List.find?_eq_none]
    intro r hr hyes
    simp only [Bool.and_eq_true, beq_iff_eq, bne_iff_ne, ne_eq] at hyes
    exact hyes.2 (huid r hr hyes.1.1 hyes.1.2)
  unfold putEntryUnchecked
  simp only [DavPrecondition.matches, hother, Bool.not_true, Bool.false_and, Bool.or_false,
    Bool.false_eq_true, if_false]
  split
  · rename_i hfull
    simp only [Bool.and_eq_true, Option.isNone_iff_eq_none, ge_iff_le, decide_eq_true_eq] at hfull
    exact .inr ⟨hfull.1, hfull.2, rfl⟩
  · obtain ⟨n, hn, hnext⟩ := nextChange_total hthere
    rw [hnext]
    exact .inl ⟨_, n, hn, rfl⟩

/-- The name of the UID is that of its entry, or the UID has neither. -/
def Named (run : MirrorRun) (id : Int) (uid : String) (db : Db) : Prop :=
  (∃ r ∈ db.resources, r.collectionId = id ∧ r.uid = uid ∧
    run.names.find? (fun n => n.1 == uid) = some (uid, r.name)) ∨
  ((∀ r ∈ db.resources, r.collectionId = id → r.uid ≠ uid) ∧ run.names.find? (fun n => n.1 == uid) = none)

variable {run : MirrorRun}

theorem Named.congr {id : Int} {uid : String} (h : Named run id uid db)
    (hsame : Same id uid db db') : Named run id uid db' := by
  rcases h with ⟨r, hr, hid, huid, hname⟩ | ⟨hno, hname⟩
  · exact .inl ⟨r, (hsame r hid huid).2 hr, hid, huid, hname⟩
  · exact .inr ⟨fun r hr hid huid => hno r ((hsame r hid huid).1 hr) hid huid, hname⟩

/-- One object is written, under the name of its entry or a new one. -/
structure Wrote (id : Int) (object : SplitObject) (checked : Checked) (db db' : Db) : Prop where
  fed : Fed id db db'
  count : db.count id ≤ db'.count id
  same : ∀ uid, uid ≠ object.uid → Same id uid db db'
  written : Written id object checked db' ∨ Full id object.uid db db'

theorem wrote_place (hwf : db.Wf) {object : SplitObject} {checked : Checked}
    (hcheck : checked.uid = object.uid) {name : String} {n : Nat} (hn : db.Stands collection.id n)
    (huid : ∀ r ∈ db.resources, r.collectionId = collection.id → r.uid = object.uid → r.name = name)
    (hname : ∀ r ∈ db.resources, r.key = (collection.id, name) → r.uid = object.uid) :
    Wrote collection.id object checked db ((db.bump collection.id).place (entryRow digest collection.id
      (writeOf name object checked) (withoutControls object.content) now (n + 1))) := by
  let row := entryRow digest collection.id (writeOf name object checked) (withoutControls object.content) now
    (n + 1)
  obtain ⟨i, d, hmem⟩ := mem_place hwf row collection.id
  constructor
  · refine fed_place hwf hn ?_
    simp only [writeOf, hcheck]
    exact huid
  · exact count_place hwf row collection.id collection.id
  · intro uid hne r hid hruid
    rw [hmem]
    constructor
    · rintro (rfl | ⟨hr, -⟩)
      · exact absurd (hruid.symm.trans hcheck) hne
      · exact hr
    · refine fun hr => .inr ⟨hr, fun hk => ?_⟩
      exact hne (hruid.symm.trans (hname r hr hk))
  · exact .inl ⟨_, (hmem _).2 (.inl rfl), rfl, hcheck, rfl, rfl, rfl, rfl⟩

/-- **One object of the feed.** -/
theorem wrote_one {draws : List String} {object : SplitObject} {checked : Checked}
    {name : String} (hwf : db.Wf) (hthere : ∃ c ∈ db.collections, c.id = collection.id)
    (honce : OnceIn db collection.id) (hcheck : checked.uid = object.uid)
    (hnamed : Named run collection.id object.uid db)
    (hname : run.nameOf collection checked.uid draws db = some name) :
    (∃ a db₁, putEntryUnchecked digest collection (writeOf name object checked) {} now db = .ok (a, db₁) ∧
      Wrote collection.id object checked db db₁) ∨
    (putEntryUnchecked digest collection (writeOf name object checked) {} now db = .error .quotaExceeded ∧
      Full collection.id object.uid db db) := by
  rw [hcheck] at hname
  -- Only entries of the UID have the name, and the entry of the UID has no other.
  have hboth : (∀ r ∈ db.resources, r.collectionId = collection.id → r.uid = object.uid → r.name = name) ∧
      (∀ r ∈ db.resources, r.key = (collection.id, name) → r.uid = object.uid) ∧
      (db.resource (collection.id, name) = none → ∀ r ∈ db.resources, r.collectionId = collection.id →
        r.uid ≠ object.uid) := by
    unfold MirrorRun.nameOf at hname
    rcases hnamed with ⟨r₀, hr₀, hid₀, huid₀, hfind⟩ | ⟨hno, hfind⟩
    · rw [hfind] at hname
      cases hname
      have hkey₀ : r₀.key = (collection.id, r₀.name) := by
        unfold DavResource.key
        rw [hid₀]
      refine ⟨fun r hr hid huid => honce r hr r₀ hr₀ hid hid₀ (huid.trans huid₀.symm), ?_, ?_⟩
      · intro r hr hk
        rw [hwf.names.eq hr hr₀ (hk.trans hkey₀.symm)]
        exact huid₀
      · intro hnone
        exact absurd hkey₀ (Db.resource_eq_none.1 hnone r₀ hr₀)
    · rw [hfind] at hname
      have hfree := Db.resource_eq_none.1 (newEntryName_free hname)
      exact ⟨fun r hr hid huid => absurd huid (hno r hr hid), fun r hr hk => absurd hk (hfree r hr),
        fun _ => hno⟩
  rcases @put_total digest _ now _ hthere (writeOf name object checked)
      (by simpa [writeOf, hcheck] using hboth.1) with ⟨a, n, hn, hput⟩ | ⟨hnone, hfull, hput⟩
  · exact .inl ⟨a, _, hput, wrote_place hwf hcheck hn hboth.1 hboth.2.1⟩
  · exact .inr ⟨hput, hfull, hboth.2.2 hnone, hboth.2.2 hnone⟩

/-- **All objects of the feed that changed**, by induction over them: what is written stays, as the
others have other UIDs. -/
theorem writeAll_spec {draws : List String} {writes : List (SplitObject × Checked)}
    {report : DavMirrorReport} {result : Except StoreError (DavMirrorReport × Db)} (hwf : db.Wf)
    (hthere : ∃ c ∈ db.collections, c.id = collection.id) (honce : OnceIn db collection.id)
    (hcheck : ∀ p ∈ writes, p.2.uid = p.1.uid) (hnodup : (writes.map fun p => p.1.uid).Nodup)
    (hnamed : ∀ p ∈ writes, Named run collection.id p.1.uid db)
    (h : writeAll digest run collection draws now writes report db = some result) :
    ∃ report' db', result = .ok (report', db') ∧ Fed collection.id db db' ∧
      db.count collection.id ≤ db'.count collection.id ∧
      (∀ uid, uid ∉ (writes.map fun p => p.1.uid) → Same collection.id uid db db') ∧
      ∀ p ∈ writes, Written collection.id p.1 p.2 db' ∨ Full collection.id p.1.uid db db' := by
  induction writes generalizing report db with
  | nil =>
    cases h
    exact ⟨report, db, rfl, .refl hwf, le_rfl, fun _ _ _ _ _ => Iff.rfl, fun _ hp => nomatch hp⟩
  | cons p writes ih =>
    obtain ⟨object, checked⟩ := p
    obtain ⟨hfresh, hrest⟩ := List.nodup_cons.1 hnodup
    unfold writeAll at h
    split at h
    · cases h
    rename_i name hname
    -- After the first object, the rest is as it was.
    have hgo : ∀ {db₁ : Db} {report₁ : DavMirrorReport}, Wrote collection.id object checked db db₁ →
        writeAll digest run collection draws now writes report₁ db₁ = some result →
        ∃ report' db', result = .ok (report', db') ∧ Fed collection.id db db' ∧
          db.count collection.id ≤ db'.count collection.id ∧
          (∀ uid, uid ∉ object.uid :: (writes.map fun p => p.1.uid) → Same collection.id uid db db') ∧
          ∀ p ∈ (object, checked) :: writes,
            Written collection.id p.1 p.2 db' ∨ Full collection.id p.1.uid db db' := by
      intro db₁ report₁ hone hall
      have hsame : ∀ p ∈ writes, Same collection.id p.1.uid db db₁ := fun p hp =>
        hone.same _ fun heq => hfresh (List.mem_map.2 ⟨p, hp, heq⟩)
      obtain ⟨report', db', hres, hfed, hcount, hsame', hwritten⟩ := ih hone.fed.wf
        (hone.fed.there hthere) (hone.fed.once honce) (fun p hp => hcheck p (List.mem_cons_of_mem _ hp)) hrest
        (fun p hp => (hnamed p (List.mem_cons_of_mem _ hp)).congr (hsame p hp)) hall
      refine ⟨report', db', hres, hone.fed.trans hfed, hone.count.trans hcount, ?_, ?_⟩
      · intro uid huid
        rw [List.mem_cons, not_or] at huid
        exact (hone.same uid huid.1).trans (hsame' uid huid.2)
      · intro p hp
        rcases List.mem_cons.1 hp with rfl | hp
        · have hstay := hsame' object.uid hfresh
          rcases hone.written with ⟨r, hr, hid, huid, hrest⟩ | ⟨hfull, hno, hno'⟩
          · exact .inl ⟨r, (hstay r hid huid).2 hr, hid, huid, hrest⟩
          · exact .inr ⟨hfull.trans hcount, hno,
              fun r hr hid huid => hno' r ((hstay r hid huid).1 hr) hid huid⟩
        · rcases hwritten p hp with hw | ⟨hfull, hno, hno'⟩
          · exact .inl hw
          · exact .inr ⟨hfull,
              fun r hr hid huid => hno r ((hsame p hp r hid huid).2 hr) hid huid, hno'⟩
    rcases @wrote_one digest _ now _ _ _ _ _ _ hwf hthere honce (hcheck _ List.mem_cons_self)
        (hnamed _ List.mem_cons_self) hname with ⟨a, db₁, hput, hone⟩ | ⟨hput, hfull⟩
    · rw [hput] at h
      exact hgo hone h
    · rw [hput] at h
      exact hgo ⟨.refl hwf, le_rfl, fun _ _ _ _ _ => Iff.rfl, .inr hfull⟩ h

/-! ## 3. Reading -/

/-- The map of entries finds each entry. -/
theorem entryOf_eq (hwf : db.Wf) {id : Int} (honce : OnceIn db id) {r : DavResource} (hr : r ∈ db.resources)
    (hid : r.collectionId = id) : entryOf db id r.uid = some r := by
  unfold entryOf
  cases hfind : (db.resources.filter fun r => r.collectionId == id).reverse.find? fun s => s.uid == r.uid with
  | none =>
    have := List.find?_eq_none.1 hfind r (by simp [hr, hid])
    simp at this
  | some s =>
    have hmem := List.mem_of_find?_eq_some hfind
    have huid := List.find?_some hfind
    rw [List.mem_reverse, List.mem_filter] at hmem
    rw [honce.eq hwf hmem.1 hr (by simpa using hmem.2) hid (by simpa using huid)]

/-- Of the UIDs of different elements, the first found is the one asked for. -/
theorem find?_fst {α : Type} {l : List α} {f : α → String × String} {a : α} (ha : a ∈ l)
    (hone : ∀ b ∈ l, (f b).1 = (f a).1 → f b = f a) :
    (l.map f).find? (fun n => n.1 == (f a).1) = some (f a) := by
  cases hfind : (l.map f).find? fun n => n.1 == (f a).1 with
  | none =>
    have := List.find?_eq_none.1 hfind (f a) (List.mem_map_of_mem ha)
    simp at this
  | some n =>
    obtain ⟨b, hb, rfl⟩ := List.mem_map.1 (List.mem_of_find?_eq_some hfind)
    rw [hone b hb (by simpa using List.find?_some hfind)]

/-- What is written is what the checks accept, in the order of the feed. -/
theorem sortChecked_spec (results : List (SplitObject × Except String Checked)) (report : DavMirrorReport) :
    (∀ o c, (o, c) ∈ (sortChecked results report).1 ↔ (o, Except.ok c) ∈ results) ∧
      ((sortChecked results report).1.map fun p => p.1.uid).Sublist (results.map fun p => p.1.uid) := by
  induction results generalizing report with
  | nil => simp [sortChecked]
  | cons p results ih =>
    obtain ⟨o, x⟩ := p
    cases x with
    | ok c =>
      obtain ⟨hmem, hsub⟩ := ih report
      constructor
      · intro o' c'
        simp only [sortChecked, List.mem_cons, Prod.mk.injEq, Except.ok.injEq, hmem]
      · exact hsub.cons_cons o.uid
    | error e =>
      obtain ⟨hmem, hsub⟩ := ih (report.problem (shorten o.label 120) e)
      constructor
      · intro o' c'
        simp only [sortChecked, List.mem_cons, Prod.mk.injEq, reduceCtorEq, and_false, false_or, hmem]
      · exact hsub.cons o.uid

/-- What a run knows of its calendar. -/
structure Read (checks : Checks) (c : DavCollection) (objects : List SplitObject) (db : Db)
    (run : MirrorRun) : Prop where
  accountId : run.accountId = c.accountId
  collectionId : run.collectionId = c.id
  gone : ∀ r ∈ db.resources, r.collectionId = c.id → (r.name ∈ run.gone ↔ ∀ o ∈ objects, o.uid ≠ r.uid)
  writes : ∀ o ch, (o, ch) ∈ run.writes ↔ o ∈ objects ∧ unchanged db c.id o = false ∧
    check checks c.kind c.components o = .ok ch
  nodup : (objects.map SplitObject.uid).Nodup → (run.writes.map fun p => p.1.uid).Nodup
  named : ∀ uid, Named run c.id uid db

theorem read_spec (hwf : db.Wf) {account id : Int} {objects : List SplitObject}
    (honce : ∀ c ∈ db.collections, c.subscribed = true → OnceIn db c.id)
    (h : mirrorRead checks account id objects db = .ok run) :
    ∃ c ∈ db.collections, c.id = id ∧ c.accountId = account ∧ c.subscribed = true ∧
      Read checks c objects db run := by
  obtain ⟨c, hown, h⟩ := Tx.except_bind_ok h
  obtain ⟨hmem, rfl, hacc⟩ := ownCollection_ok hown
  have hacc : c.accountId = account := by simpa using hacc
  split at h
  · cases h
  rename_i hsub
  have hsub : c.subscribed = true := by simpa using hsub
  have honce := honce c hmem hsub
  cases h
  let current := db.resources.filter fun r =>
    r.collectionId == c.id && decide (entryOf db c.id r.uid = some r)
  have hcurrent : ∀ r, r ∈ current ↔ r ∈ db.resources ∧ r.collectionId = c.id := by
    intro r
    rw [List.mem_filter]
    refine and_congr_right fun hr => ?_
    simp only [Bool.and_eq_true, beq_iff_eq, decide_eq_true_eq, and_iff_left_iff_imp]
    exact entryOf_eq hwf honce hr
  refine ⟨c, hmem, rfl, hacc, hsub, ?_⟩
  constructor
  · exact hacc.symm
  · rfl
  · intro r hr hid
    simp only [List.mem_map, List.mem_filter]
    constructor
    · rintro ⟨r', ⟨hr', hno⟩, hname⟩
      obtain ⟨hr', hid'⟩ := (hcurrent r').1 (List.mem_filter.2 hr')
      have : r' = r := hwf.names.eq hr' hr (by
        unfold DavResource.key
        rw [hid', hid, hname])
      subst this
      intro o ho huid
      simp only [Bool.not_eq_true', List.contains_eq_mem, decide_eq_false_iff_not, List.mem_map] at hno
      exact hno ⟨o, ho, huid⟩
    · intro hno
      refine ⟨r, ⟨List.mem_filter.1 ((hcurrent r).2 ⟨hr, hid⟩), ?_⟩, rfl⟩
      simp only [Bool.not_eq_true', List.contains_eq_mem, decide_eq_false_iff_not, List.mem_map, not_exists,
        not_and]
      exact hno
  · intro o ch
    rw [(sortChecked_spec _ _).1]
    simp only [List.mem_map, List.mem_filter, Bool.not_eq_true', Prod.mk.injEq]
    constructor
    · rintro ⟨o', ⟨ho', hun⟩, rfl, hcheck⟩
      exact ⟨ho', hun, hcheck⟩
    · rintro ⟨ho, hun, hcheck⟩
      exact ⟨o, ⟨ho, hun⟩, rfl, hcheck⟩
  · intro hnodup
    refine hnodup.sublist ((sortChecked_spec _ _).2.trans ?_)
    rw [List.map_map]
    exact List.filter_sublist.map SplitObject.uid
  · intro uid
    by_cases hsome : ∃ r ∈ db.resources, r.collectionId = c.id ∧ r.uid = uid
    · obtain ⟨r, hr, hid, rfl⟩ := hsome
      refine .inl ⟨r, hr, hid, rfl, ?_⟩
      refine find?_fst (f := fun r : DavResource => (r.uid, r.name)) ((hcurrent r).2 ⟨hr, hid⟩) ?_
      intro s hs huid
      obtain ⟨hs, hsid⟩ := (hcurrent s).1 hs
      rw [honce.eq hwf hs hr hsid hid huid]
    · refine .inr ⟨fun r hr hid huid => hsome ⟨r, hr, hid, huid⟩, ?_⟩
      rw [List.find?_eq_none]
      intro n hn huid
      obtain ⟨r, hr, rfl⟩ := List.mem_map.1 hn
      obtain ⟨hr, hid⟩ := (hcurrent r).1 hr
      exact hsome ⟨r, hr, hid, by simpa using huid⟩

/-! ## 4. A whole run -/

theorem ownCollection_eq (hwf : db.Wf) {c : DavCollection} (hc : c ∈ db.collections) :
    ownCollection db (some c.accountId) c.id = .ok c := by
  unfold ownCollection
  cases hfind : db.collections.find? fun d => d.id == c.id && (some c.accountId).all (d.accountId == ·) with
  | none =>
    have := List.find?_eq_none.1 hfind c hc
    simp at this
  | some d =>
    have hid := List.find?_some hfind
    simp only [Bool.and_eq_true, beq_iff_eq] at hid
    rw [hwf.collections.eq (List.mem_of_find?_eq_some hfind) hc hid.1]

/-- **A run that nothing falls into**: the calendar mirrors its feed. -/
theorem mirrors_alone {account id : Int} {objects : List SplitObject} {draws : List String}
    {result : Except StoreError (DavMirrorReport × Db)} (hwf : db.Wf)
    (honce : ∀ c ∈ db.collections, c.subscribed = true → OnceIn db c.id)
    (hcal : ∀ c ∈ db.collections, c.subscribed = true → c.kind = .calendar)
    (hnodup : (objects.map SplitObject.uid).Nodup) (hread : mirrorRead checks account id objects db = .ok run)
    (hwrite : mirrorWrite digest run draws now db = some result) :
    ∃ c ∈ db.collections, c.id = id ∧ c.accountId = account ∧
      Mirrors checks c objects db (commit db result) := by
  obtain ⟨c, hc, hid, hacc, hsub, hrun⟩ := read_spec hwf honce hread
  refine ⟨c, hc, hid, hacc, ?_⟩
  have honce := honce c hc hsub
  have hthere : ∃ c' ∈ db.collections, c'.id = c.id := ⟨c, hc, rfl⟩
  obtain ⟨report₁, db₁, hdel, hmem₁⟩ := deleteAll_total run.gone run.report hwf hthere
  have hfed₁ := fed_deleteAll hwf hdel
  unfold mirrorWrite at hwrite
  rw [hrun.accountId, hrun.collectionId, ownCollection_eq hwf hc] at hwrite
  simp only [hdel] at hwrite
  obtain ⟨result₁, hall, rfl⟩ := Option.map_eq_some_iff.1 hwrite
  -- Deleting leaves the entries of the objects alone.
  have hkept : ∀ o ∈ objects, Same c.id o.uid db db₁ := by
    intro o ho r hrid hruid
    rw [hmem₁]
    refine and_iff_left_of_imp fun hr hgone => ?_
    exact (hrun.gone r hr hrid).1 hgone.2 o ho hruid.symm
  have hwrites : ∀ p ∈ run.writes, p.1 ∈ objects ∧ unchanged db c.id p.1 = false ∧
      check checks c.kind c.components p.1 = .ok p.2 := fun p hp => (hrun.writes p.1 p.2).1 hp
  have hcheck : ∀ p ∈ run.writes, p.2.uid = p.1.uid := by
    intro p hp
    have := (hwrites p hp).2.2
    unfold check at this
    rw [hcal c hc hsub] at this
    simp only at this
    split at this
    · split at this
      · cases this
      · rename_i hsame
        cases this
        simpa using hsame
    · cases this
    · cases this
  obtain ⟨report', db', rfl, hfed, hcount, hsame, hwritten⟩ := writeAll_spec hfed₁.wf (hfed₁.there hthere)
    (hfed₁.once honce) hcheck (hrun.nodup hnodup)
    (fun p hp => (hrun.named p.1.uid).congr (hkept p.1 (hwrites p hp).1)) hall
  have hfed' := hfed₁.trans hfed
  -- An object whose UID is written is the one that is written.
  have hone : ∀ o ∈ objects, ∀ p ∈ run.writes, p.1.uid = o.uid → p.1 = o := fun o ho p hp huid =>
    List.inj_on_of_nodup_map hnodup (hwrites p hp).1 ho huid
  have hstay : ∀ o ∈ objects, (∀ p ∈ run.writes, p.1 ≠ o) → Same c.id o.uid db db' := by
    intro o ho hno
    refine (hkept o ho).trans (hsame o.uid ?_)
    intro hin
    obtain ⟨p, hp, huid⟩ := List.mem_map.1 hin
    exact hno p hp (hone o ho p hp huid)
  constructor
  · intro r hr r' hr' hrid hrid' huid
    exact (hfed'.once honce).eq hfed'.wf hr hr' hrid hrid' huid
  · intro r hr hrid
    by_contra hno
    have hno : ∀ o ∈ objects, o.uid ≠ r.uid := fun o ho huid => hno ⟨o, ho, huid⟩
    have hr₁ : r ∈ db₁.resources := by
      refine (hsame r.uid ?_ r hrid rfl).1 hr
      intro hin
      obtain ⟨p, hp, huid⟩ := List.mem_map.1 hin
      exact hno p.1 (hwrites p hp).1 huid
    obtain ⟨hr₀, hgone⟩ := (hmem₁ r).1 hr₁
    exact hgone ⟨hrid, (hrun.gone r hr₀ hrid).2 hno⟩
  · intro o ho hun
    refine hstay o ho ?_
    rintro p hp rfl
    rw [(hwrites p hp).2.1] at hun
    cases hun
  · intro o ho e he
    refine hstay o ho ?_
    rintro p hp rfl
    rw [(hwrites p hp).2.2] at he
    cases he
  · intro o ho hun ch hch
    rcases hwritten (o, ch) ((hrun.writes o ch).2 ⟨ho, hun, hch⟩) with hw | ⟨hfull, hno, hno'⟩
    · exact .inl hw
    · exact .inr ⟨hfull, fun r hr hrid huid => hno r ((hkept o ho r hrid huid).2 hr) hrid huid, hno'⟩
  · exact hfed'.others

/-! ## 5. The law, where it holds -/

variable {w w' : World}

/-- **Mirrored calendars**: in every order of steps where no subscription ends between the two steps
of a run that found something to change, a calendar that is not subscribed is never written by a
feed, and a run that nothing falls into leaves its calendar mirroring the feed. -/
theorem mirror_when (digest : String → String) (checks : Checks) (es : List Event)
    (hkept : Trace.Along (step digest checks) Kept {} es) : Lawful digest checks es := by
  constructor
  · intro es₁ i draws now es₂ w w' hes hrun hstep run hget c hc hid hsub
    rw [hes] at hkept
    have htame : Tame w := by
      have hstart : Tame {} := ⟨inv_empty, by simp⟩
      exact Trace.run_invariant tame_step hstart ((Trace.along_append hrun).1 hkept).1 hrun
    exact htame.write hstep hget hc hid hsub
  · intro es₁ account id objects i draws now es₂ w w₁ w₂ _ hrun hread hlen hi hwrite hnodup
    have hinv : Inv w := Trace.run_invariant' inv_step inv_empty hrun
    simp only [step] at hread
    split at hread
    · rename_i run hok
      cases hread
      simp only [step, Option.bind_eq_bind, Option.bind_eq_some_iff] at hwrite
      obtain ⟨run', hget, result, hresult, heq⟩ := hwrite
      cases heq
      rw [hi, List.getElem?_concat_length] at hget
      cases hget
      exact mirrors_alone hinv.wf hinv.once hinv.calendars hnodup hok hresult
    · cases hread
      omega

/-- An event of a feed, and what the checks say of it. -/
def aMeeting : SplitObject :=
  ⟨"Meeting", "a", "BEGIN:VCALENDAR\r\nVERSION:2.0\r\nPRODID:x\r\nBEGIN:VEVENT\r\nUID:a\r\n" ++
    "DTSTAMP:20260101T000000Z\r\nDTSTART:20260102T100000Z\r\nEND:VEVENT\r\nEND:VCALENDAR\r\n"⟩

def someChecks : Checks where
  calendar := fun _ _ => .ok { uid := "a", component := "VEVENT", startsAt := some 1767348000 }
  contact := fun _ _ => .error (.invalidData "no card")

/-- A feed is mirrored twice, and the subscription ends. -/
def mirroredTwice : List Event :=
  [.collections (.subscribe 1 aFeed { slug := "personal" } 0), .read 1 2 [aMeeting], .write 0 [] 0,
    .read 1 2 [aMeeting], .collections (.unsubscribe 1 1 true), .write 0 [] 1]

theorem mirror_twice : Lawful id someChecks mirroredTwice :=
  mirror_when id someChecks mirroredTwice (by decide +kernel)

/-- The subscription ends between the two steps of a run. -/
def endedMeanwhile : List Event :=
  [.collections (.subscribe 1 aFeed { slug := "personal" } 0), .read 1 2 [aMeeting],
    .collections (.unsubscribe 1 1 true)]

/-- **A feed may write an ordinary calendar.** -/
theorem mirror_fails : ¬ Lawful id someChecks (endedMeanwhile ++ [.write 0 [] 0]) := by
  intro h
  have hrun : ∃ w, Trace.run (step id someChecks) {} endedMeanwhile = some w ∧
      (w.runs[0]?.any fun run => w.calendars.db.collections.any fun c =>
        c.id == run.collectionId && !c.subscribed) = true ∧
      w.calendars.db.resources.length = 0 ∧
      (step id someChecks w (.write 0 [] 0)).any (fun w' => w'.calendars.db.resources.length == 1) := by
    refine ⟨_, rfl, ?_, ?_, ?_⟩ <;> decide
  obtain ⟨w, hrun, hordinary, hbefore, hafter⟩ := hrun
  obtain ⟨run, hget, hany⟩ := (Option.any_eq_true _ _).1 hordinary
  obtain ⟨c, hc, hflags⟩ := List.any_eq_true.1 hany
  simp only [Bool.and_eq_true, beq_iff_eq, Bool.not_eq_true'] at hflags
  obtain ⟨w', hstep, hlen⟩ := (Option.any_eq_true _ _).1 hafter
  have := h.subscribed endedMeanwhile 0 [] 0 [] w w' rfl hrun hstep run hget c hc hflags.1 hflags.2
  rw [this, hbefore] at hlen
  cases hlen

end UwuMail.Dav.Mirror
