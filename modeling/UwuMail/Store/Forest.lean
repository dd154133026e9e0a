/-
# The mailbox forest

`check_parent` walks up from the new parent: it refuses a mailbox that would end up inside itself,
and a parent with more than 64 mailboxes above it.  So there are never cycles, and a mailbox that
is CREATED is never too deep.  A move is another matter.  It carries a whole subtree along, and
nobody looks at how tall that subtree is: what is at its bottom can come to lie deeper than the
limit.

`Grounded B` is the invariant for both facts: every chain of parents ends, after a number of
mailboxes that satisfies `B`.
-/
import UwuMail.Lib.Forest
import UwuMail.Store.Run

namespace UwuMail.Store

open Table Forest

/-! ## 1. Parents -/

/-- The parent of a mailbox. -/
def Db.up (db : Db) (id : Int) : Option Int := (db.mailbox id).bind (·.parentId)

/-- Every chain of parents ends, after a number of mailboxes that satisfies `B`. -/
def Grounded (B : Nat → Prop) (db : Db) : Prop :=
  ∀ r ∈ db.mailboxes, ∃ n, B n ∧ Depth db.up r.parentId n

section Up

variable {db db' : Db} {a m : Int}

theorem Keyed.up_eq (hk : Keyed db) {r : MailboxRow} (hr : r ∈ db.mailboxes) :
    db.up r.id = r.parentId := by
  have hfind : db.mailbox r.id = some r := hk.mailbox.find?_eq hr
  rw [Db.up, hfind]
  rfl

/-- A mailbox without children is nobody's parent. -/
theorem up_ne {b : Int} (h : ∀ r ∈ db.mailboxes, r.parentId ≠ some b) (x : Int) : db.up x ≠ some b := by
  intro hx
  obtain ⟨r, hr, hpar⟩ := Option.bind_eq_some_iff.1 hx
  exact h r (List.mem_of_find?_eq_some hr) hpar

/-- Only ids, owners and parents count. -/
theorem up_congr (h : db'.mailboxes.map MailboxRow.place = db.mailboxes.map MailboxRow.place) :
    db'.up = db.up := by
  have hup : ∀ d : Db, ∀ id, d.up id =
      (((d.mailboxes.map MailboxRow.place).find? fun p => p.1 == id).bind (·.2.2)) := by
    intro d id
    rw [List.find?_map, Db.up, Db.mailbox]
    cases hfind : d.mailboxes.find? fun r => r.id == id with
    | none =>
      have hfind' : d.mailboxes.find? ((fun p => p.1 == id) ∘ MailboxRow.place) = none := hfind
      rw [hfind']
      rfl
    | some r =>
      have hfind' : d.mailboxes.find? ((fun p => p.1 == id) ∘ MailboxRow.place) = some r := hfind
      rw [hfind']
      rfl
  funext id
  rw [hup, hup, h]

theorem Grounded.congr {B : Nat → Prop} (hg : Grounded B db)
    (h : db'.mailboxes.map MailboxRow.place = db.mailboxes.map MailboxRow.place) : Grounded B db' := by
  intro r' hr'
  have hmem : r'.place ∈ db.mailboxes.map MailboxRow.place := by
    rw [← h]
    exact List.mem_map_of_mem hr'
  obtain ⟨r, hr, hplace⟩ := List.mem_map.1 hmem
  have hpar : r.parentId = r'.parentId := congrArg (·.2.2) hplace
  rw [up_congr h, ← hpar]
  exact hg r hr

/-- What `check_parent` lets pass: a chain that ends within the limit and does not meet the
mailbox. -/
theorem chain_of_checkParentLoop (hk : Keyed db) {mailbox : Option Int} {fuel : Nat}
    {parent : Option Int} (h : checkParentLoop db a mailbox fuel parent = .ok ⟨⟩) :
    ∃ n ≤ fuel, Chain db.up (fun x => some x ≠ mailbox) parent n := by
  induction fuel generalizing parent with
  | zero =>
    cases parent with
    | none => exact ⟨0, le_refl _, .root⟩
    | some id =>
      obtain ⟨_, -, h⟩ := Tx.except_bind_ok h
      cases h
  | succ fuel ih =>
    cases parent with
    | none => exact ⟨0, Nat.zero_le _, .root⟩
    | some id =>
      obtain ⟨q, hq, h⟩ := Tx.except_bind_ok h
      obtain ⟨n, hn, hchain⟩ := ih h
      unfold parentOf at hq
      split at hq
      · cases hq
      · rename_i hne
        split at hq
        · cases hq
        · rename_i row hrow
          cases hq
          have hmem := List.mem_of_find?_eq_some hrow
          have hkey : row.id = id ∧ row.accountId = a := by simpa using List.find?_some hrow
          refine ⟨n + 1, by omega, .node hne ?_⟩
          rw [← hkey.1, hk.up_eq hmem]
          exact hchain

end Up

/-! ## 2. Every write keeps it -/

section Events

variable {a m : Int} {dying : Option Int} {db : Db} {B : Nat → Prop}

theorem Grounded.create {row : MailboxRow} (hg : Grounded B db) (hk : Keyed db) (hl : Linked db)
    (hf : row.Fits a m db) (hB : ∀ n ≤ maxDepth, B n) : Grounded B (db.applyCreate a m row) := by
  have hnew := hf.new hl
  obtain ⟨n, hn, hchain⟩ := chain_of_checkParentLoop hk hf.parent
  rw [Db.applyCreate_eq hf.id hf.updated hnew]
  -- The new mailbox is in nobody's chain.
  have hup : ∀ x, x ≠ row.id → Db.up { db with
      mailboxes := db.mailboxes ++ [row], mailboxSeq := row.id,
      mailboxAcl := db.mailboxAcl ++ Db.inherited db.mailboxAcl row.id row.parentId,
      changes := insertOrIgnore ChangeRow.key ⟨a, m, .mailbox, row.id, .created⟩ db.changes } x =
        db.up x := by
    intro x hx
    have hne : (row.id == x) = false := by simpa using hx.symm
    simp [Db.up, Db.mailbox, List.find?_append, hne]
  have hpar : ∀ r ∈ db.mailboxes, r.parentId ≠ some row.id := by
    intro r hr hpar
    obtain ⟨p, hp, hpid, -⟩ := hl.parent r hr row.id hpar
    exact hnew p hp hpid
  intro r hr
  rcases List.mem_append.1 hr with hr | hr
  · obtain ⟨d, hd, hdepth⟩ := hg r hr
    refine ⟨d, hd, ((hdepth.avoid (up_ne hpar) (hpar r hr)).congr hup).mono fun _ _ => trivial⟩
  · rw [List.mem_singleton.1 hr]
    refine ⟨n, hB n hn, ((hchain.avoid (up_ne hpar) ?_).congr hup).mono fun _ _ => trivial⟩
    intro h
    obtain ⟨p, hp, hpid, -⟩ := has_of_checkParent (h ▸ hf.parent)
    exact hnew p hp hpid

/-- The mailboxes after one was altered. -/
theorem mailboxes_alter (db : Db) (a m id : Int) (u : MailboxUpdate) :
    ∃ g : MailboxRow → MailboxRow,
      ((db.updateMailboxes (fun r => r.id == id) u.apply).mailboxUpdated a m id).mailboxes =
        db.mailboxes.map g ∧ (∀ r, (g r).id = r.id ∧ (g r).accountId = r.accountId) ∧
      ∀ r, (g r).parentId = if r.id = id then u.parentId.getD r.parentId else r.parentId := by
  refine ⟨fun r => setRow m [id] (if r.id == id then u.apply r else r), ?_, ?_, ?_⟩
  · rw [Db.mailboxUpdated_eq, Db.updateMailboxes, updateWhere, List.map_map]
    rfl
  · intro r
    rw [setRow_id, setRow_accountId]
    split <;> exact ⟨rfl, rfl⟩
  · intro r
    rw [setRow_parentId]
    by_cases h : r.id = id <;> simp [h, MailboxUpdate.apply]

/-- A mailbox was hung somewhere else. -/
theorem up_alter {id : Int} {u : MailboxUpdate} {p : Option Int} (hhas : db.Has a id)
    (hp : u.parentId = some p) :
    ((db.updateMailboxes (fun r => r.id == id) u.apply).mailboxUpdated a m id).up =
      Function.update db.up id p := by
  obtain ⟨g, htab, hid, hpar⟩ := mailboxes_alter db a m id u
  funext x
  have hcomp : ((fun r : MailboxRow => r.id == x) ∘ g) = fun r => r.id == x := by
    funext r
    simp [(hid r).1]
  rw [Db.up, Db.mailbox, htab, List.find?_map, hcomp]
  cases hfind : db.mailboxes.find? fun r => r.id == x with
  | none =>
    have hne : x ≠ id := by
      rintro rfl
      obtain ⟨r, hr, hrid, -⟩ := hhas
      exact absurd (List.find?_eq_none.1 hfind r hr) (by simp [hrid])
    rw [Function.update_of_ne hne, Db.up, Db.mailbox, hfind]
    rfl
  | some r =>
    have hrx : r.id = x := by simpa using List.find?_some hfind
    by_cases hx : x = id
    · subst hx
      simp [hpar, hrx, hp]
    · rw [Function.update_of_ne hx, Db.up, Db.mailbox, hfind]
      simp [hpar, hrx, hx]

theorem Grounded.alter {id : Int} {u : MailboxUpdate} (hg : Grounded B db) (hk : Keyed db)
    (hf : u.Fits a db id) (hB : ∀ p, u.parentId = some p → ∀ n y k, Depth db.up p n →
      Below db.up id y k → B (n + k)) :
    Grounded B ((db.updateMailboxes (fun r => r.id == id) u.apply).mailboxUpdated a m id) := by
  obtain ⟨g, htab, hid, hpar⟩ := mailboxes_alter db a m id u
  cases hp : u.parentId with
  | none =>
    refine hg.congr ?_
    rw [htab]
    refine map_place_map fun r => ?_
    have := hpar r
    rw [hp, Option.getD_none, ite_self] at this
    rw [MailboxRow.place, MailboxRow.place, (hid r).1, (hid r).2, this]
  | some p =>
    obtain ⟨n, -, hchain⟩ := chain_of_checkParentLoop hk (hf.parent p hp)
    have hchain : Chain db.up (· ≠ id) p n := hchain.mono fun x hx e => hx (congrArg some e)
    have hdepth : Depth db.up p n := hchain.mono fun _ _ => trivial
    intro r' hr'
    rw [htab] at hr'
    obtain ⟨r, hr, rfl⟩ := List.mem_map.1 hr'
    rw [up_alter hf.has hp, hpar, hp, Option.getD_some]
    split
    · refine ⟨n, hB p hp n id 0 hdepth .refl, ?_⟩
      exact (hchain.congr fun y hy => Function.update_of_ne hy p db.up).mono fun _ _ => trivial
    · obtain ⟨d, hd, hold⟩ := hg r hr
      rcases hchain.move hold with hnew | ⟨y, k, hy, hbelow, hnew⟩
      · exact ⟨d, hd, hnew⟩
      · refine ⟨k + 1 + n, ?_, hnew⟩
        rw [add_comm]
        refine hB p hp n r.id (k + 1) hdepth (.step ?_ hbelow)
        rw [hk.up_eq hr, hy]

theorem Grounded.drop {b : Int} (hg : Grounded B db) (hd : db.Droppable a b) :
    Grounded B (db.dropMailbox a m b) := by
  rw [Db.dropMailbox_eq]
  have hup : ∀ x, x ≠ b → ∀ t : List MailboxRow,
      ((deleteWhere (fun r : MailboxRow => r.id == b) t).find? fun r => r.id == x) =
        t.find? fun r => r.id == x := by
    intro x hx t
    rw [deleteWhere, List.find?_filter]
    congr 1
    funext r
    by_cases h : r.id = x
    · simp [h, hx]
    · simp [h]
  intro r hr
  have hr := (mem_deleteWhere.1 hr).1
  obtain ⟨d, hd', hdepth⟩ := hg r hr
  have havoid := hdepth.avoid (up_ne hd.childless) (hd.childless r hr)
  refine ⟨d, hd', (havoid.congr ?_).mono fun _ _ => trivial⟩
  intro x hx
  simp only [Db.up, Db.mailbox, hup x hx]

/-- Every event, if a move it makes fits. -/
theorem Event.Fits.grounded {e : Event} (hf : e.Fits a m dying db) (hs : Sound a m dying db)
    (hg : Grounded B db) (hB : ∀ n ≤ maxDepth, B n)
    (hmove : ∀ id u, e = .alter id u → ∀ p, u.parentId = some p → ∀ n y k, Depth db.up p n →
      Below db.up id y k → B (n + k)) : Grounded B (e.apply a m db) := by
  cases e with
  | store p ids =>
    rw [Event.apply, Db.storeEmail_eq hf.2.nodup hf.2.mailboxes hs.linked.newEmail]
    exact hg.congr (map_place_map fun r => by simp [MailboxRow.place])
  | update plan =>
    obtain ⟨gone, -, heq⟩ := Db.applyUpdate_eq a m hf.2.oldMailboxes hf.2.mailboxes
    rw [Event.apply, heq]
    exact hg.congr (map_place_map fun r => by simp [MailboxRow.place])
  | destroy row =>
    rw [Event.apply, Db.applyDestroy_eq]
    exact hg.congr (map_place_map fun r => by simp [MailboxRow.place])
  | leave email mailbox =>
    rw [Event.apply, Db.leaveMailbox_eq]
    exact hg.congr (map_place_map fun r => by simp [MailboxRow.place])
  | create row => exact hg.create hs.keyed hs.linked hf.2 hB
  | alter id u => exact hg.alter hs.keyed hf.2 (hmove id u rfl)
  | share mailbox acl =>
    rw [Event.apply, Db.applyAcl, Db.recordChange_eq]
    exact hg.congr (map_place_map fun r => by simp [MailboxRow.place])
  | members list shared => exact hg.congr rfl

end Events

/-! ## 3. Runs -/

theorem grounded_runOps {ext : Externals} (ops : List StoreOp) :
    Grounded (fun _ => True) (runOps ext ops {}) :=
  runOps_invariant (fun _ _ _ h => h.congr rfl) (fun _ _ h => h.congr rfl)
    (fun hs _ hf h => hf.grounded hs h (fun _ _ => trivial) fun _ _ _ _ _ _ _ _ _ _ => trivial)
    (fun _ hd h => h.drop hd) ops Intact.empty (by intro r hr; simp at hr)

/-- A move that `check_parent` lets through fits if nothing below the mailbox comes to lie too
deep. -/
def StoreOp.MoveFits (db : Db) : StoreOp → Prop
  | updateMailbox account id update => ∀ p, update.parentId = some p →
    checkParent db account (some id) p = .ok ⟨⟩ →
    ∀ n y k, Depth db.up p n → Below db.up id y k → n + k ≤ maxDepth
  | _ => True

theorem shallow_runOps {ext : Externals} (ops : List StoreOp)
    (hm : Meets ext StoreOp.MoveFits ops {}) : Grounded (· ≤ maxDepth) (runOps ext ops {}) := by
  refine meets_induct ?_ ops hm Intact.empty (by intro r hr; simp at hr)
  intro db db' op hi hg hok hout
  cases hout with
  | same => exact hg
  | account => exact hg.congr rfl
  | provision hop hyes heff =>
    refine heff.keeps (hi.insertAccount _) (fun _ _ h => h.congr rfl) ?_ (fun _ _ hd h => h.drop hd)
      (hg.congr rfl)
    intro d e hs _ he hf h
    refine hf.grounded hs h (fun _ hn => hn) ?_
    rintro id u rfl
    simp [provisions] at he
  | @effect m es dying _ heff hgives =>
    by_cases halter : ∃ id u, Event.alter id u ∈ es
    · obtain ⟨id, u, he⟩ := halter
      obtain ⟨a, update, rfl, hpar, rfl, rfl⟩ := hgives.source he
      obtain ⟨rfl, hfit⟩ := heff.single_inv
      obtain ⟨hs, -⟩ := hi.start heff.modseq none
      refine hfit.grounded hs (hg.congr rfl) (fun _ hn => hn) ?_
      rintro id' u' ⟨rfl, rfl⟩ p hp
      refine hok p (hpar ▸ hp) ?_
      rw [← checkParent_bumpModseq]
      exact hfit.2.parent p hp
    · refine heff.keeps hi (fun _ _ h => h.congr rfl) ?_ (fun _ _ hd h => h.drop hd) hg
      intro d e hs _ he hf h
      refine hf.grounded hs h (fun _ hn => hn) ?_
      rintro id u rfl
      exact absurd ⟨id, u, he⟩ halter

/-- **The mailbox forest.**  In every reachable database no mailbox is inside itself and every
parent is a mailbox of the same account.  And if every move fits, no mailbox lies deeper than the
nesting limit. -/
theorem mailboxes_form_forest (ext : Externals) (ops : List StoreOp) :
    let db := runOps ext ops {}
    (∀ r ∈ db.mailboxes, ¬ Relation.TransGen (fun c p => db.up c = some p) r.id r.id) ∧
      (∀ r ∈ db.mailboxes, ∀ p, r.parentId = some p → db.Has r.accountId p) ∧
      (Meets ext StoreOp.MoveFits ops {} →
        ∀ r ∈ db.mailboxes, ∀ n, Depth db.up r.parentId n → n ≤ maxDepth) := by
  intro db
  have hi : Intact db := intact_runOps ops
  refine ⟨?_, hi.linked.parent, ?_⟩
  · intro r hr
    obtain ⟨n, -, hdepth⟩ := grounded_runOps ops r hr
    refine Depth.not_cycle (n := n + 1) (.node trivial ?_)
    rw [hi.keyed.up_eq hr]
    exact hdepth
  · intro hm r hr n hdepth
    obtain ⟨d, hd, hdepth'⟩ := shallow_runOps ops hm r hr
    rwa [hdepth.unique hdepth']

/-- Two chains of 33 folders, and then the first folder of the second is moved below the last one
of the first. -/
def towerOps : List StoreOp :=
  .createAccount ⟨"ada", false, 0, true⟩ 0 ::
    ((List.range 33).map fun (i : Nat) =>
      .createMailbox 1 "a" (if i = 0 then none else some (6 + i)) none 0 true 0) ++
    ((List.range 33).map fun (i : Nat) =>
      .createMailbox 1 "b" (if i = 0 then none else some (39 + i)) none 0 true 0) ++
    [.updateMailbox 1 40 { parentId := some (some 39) }]

/-- The last folder lies 65 levels deep. -/
theorem moved_tower_too_deep :
    ∃ r ∈ (runOps plainExternals towerOps {}).mailboxes, ∃ n,
      Depth (runOps plainExternals towerOps {}).up r.parentId n ∧ ¬ n ≤ maxDepth := by
  have hany : ((runOps plainExternals towerOps {}).mailboxes.any fun r =>
      walk (runOps plainExternals towerOps {}).up 65 r.parentId == some 65) = true := by
    decide +kernel
  obtain ⟨r, hr, hwalk⟩ := List.any_eq_true.1 hany
  have hdepth := depth_of_walk (beq_iff_eq.1 hwalk)
  refine ⟨r, hr, 65, hdepth, ?_⟩
  unfold maxDepth
  omega

/-- A folder moved below another one. -/
def oneMove : List StoreOp :=
  [.createAccount ⟨"ada", false, 0, true⟩ 0, .createMailbox 1 "a" none none 0 true 0,
    .createMailbox 1 "b" none none 0 true 0, .updateMailbox 1 8 { parentId := some (some 7) }]

theorem one_move_fits : Meets plainExternals StoreOp.MoveFits oneMove {} ∧
    ∀ r ∈ (runOps plainExternals oneMove {}).mailboxes, ∀ n,
      Depth (runOps plainExternals oneMove {}).up r.parentId n → n ≤ maxDepth := by
  have hmeets : Meets plainExternals StoreOp.MoveFits oneMove {} := by
    refine ⟨trivial, trivial, trivial, ?_, trivial⟩
    set db := runOps plainExternals (oneMove.take 3) {} with hdb
    intro p hp _ n y k hdepth hbelow
    cases hp
    have hn : n = 1 := by
      have hwalk : walk db.up 1 (some 7) = some 1 := by
        rw [hdb]
        decide
      exact hdepth.unique (depth_of_walk hwalk)
    have hleaf : ∀ r ∈ db.mailboxes, r.parentId ≠ some 8 := by
      rw [hdb]
      decide
    rw [hn, hbelow.eq_zero (up_ne hleaf)]
    decide
  exact ⟨hmeets, (mailboxes_form_forest plainExternals oneMove).2.2 hmeets⟩

end UwuMail.Store
