/-
# Keeping the newest of each bucket

A thinning rule sorts things into buckets (days, weeks) and keeps, of each of the last `count`
buckets that hold something, the newest thing.  Several rules with buckets of different width work
side by side, and the newest thing of all stays in any case.

What makes thinning go on for ever without looking back is `kept_insert_kept`: what was let go
earlier is not missed later.  For a bucket among the last ones was among the last ones before, so
its newest thing was kept; and a bucket that is not had as many later ones kept as it takes to be
left out again (`above_kept`).

* §1 and §2 are this argument.
* §3 is the loop a program does it with: it runs over the things from the newest on and keeps what
  opens a bucket (`mem_firsts`).
-/
import Mathlib

namespace UwuMail.Buckets

/-- The newest of each of the last `count` buckets. -/
structure Rule (α β : Type) where
  count : Nat
  bucketOf : α → β

section
variable {α β κ : Type} [LinearOrder β] [LinearOrder κ]

/-- The buckets later than `b` that hold something of `s`. -/
def above (bucketOf : α → β) (s : Finset α) (b : β) : Finset β := (s.image bucketOf).filter (b < ·)

/-- A thing that stands for its bucket: none of the bucket is newer, and the bucket is one of the
last. -/
def Rule.Picks (rule : Rule α β) (key : α → κ) (s : Finset α) (x : α) : Prop :=
  (∀ y ∈ s, rule.bucketOf y = rule.bucketOf x → key y ≤ key x) ∧
    (above rule.bucketOf s (rule.bucketOf x)).card < rule.count

/-- What stays by one of the rules, or because nothing is newer. -/
def Stays (rules : List (Rule α β)) (key : α → κ) (s : Finset α) (x : α) : Prop :=
  (∀ y ∈ s, key y ≤ key x) ∨ ∃ rule ∈ rules, rule.Picks key s x

open Classical in
noncomputable def kept (rules : List (Rule α β)) (key : α → κ) (s : Finset α) : Finset α :=
  s.filter (Stays rules key s)

variable {rules : List (Rule α β)} {rule : Rule α β} {key : α → κ} {s t : Finset α} {x y : α}
  {b : β}

theorem mem_kept : x ∈ kept rules key s ↔ x ∈ s ∧ Stays rules key s x := by
  simp [kept]

@[simp] theorem kept_empty : kept rules key ∅ = ∅ := by
  ext x
  simp [mem_kept]

theorem kept_subset : kept rules key s ⊆ s := fun _ h => (mem_kept.1 h).1

theorem mem_above {bucketOf : α → β} : b ∈ above bucketOf s (bucketOf x) ↔
    (∃ y ∈ s, bucketOf y = b) ∧ bucketOf x < b := by
  simp [above]

theorem above_mono {bucketOf : α → β} (h : s ⊆ t) : above bucketOf s b ⊆ above bucketOf t b :=
  Finset.filter_subset_filter _ (Finset.image_subset_image h)

/-! ## 1. What was kept stands for what was there -/

/-- The newest thing of all is kept. -/
theorem exists_newest (hs : y ∈ s) : ∃ z ∈ kept rules key s, ∀ x ∈ s, key x ≤ key z := by
  obtain ⟨z, hz, hmax⟩ := s.exists_max_image key ⟨y, hs⟩
  exact ⟨z, mem_kept.2 ⟨hz, .inl hmax⟩, hmax⟩

/-- The newest thing of one of the last buckets is kept. -/
theorem exists_picked (hrule : rule ∈ rules) (hy : y ∈ s)
    (hlast : (above rule.bucketOf s (rule.bucketOf y)).card < rule.count) :
    ∃ z ∈ kept rules key s, rule.bucketOf z = rule.bucketOf y ∧
      ∀ x ∈ s, rule.bucketOf x = rule.bucketOf y → key x ≤ key z := by
  obtain ⟨z, hz, hmax⟩ := (s.filter fun x => rule.bucketOf x = rule.bucketOf y).exists_max_image key
    ⟨y, by simp [hy]⟩
  simp only [Finset.mem_filter] at hz hmax
  have hnewest : ∀ x ∈ s, rule.bucketOf x = rule.bucketOf y → key x ≤ key z := fun x hx hb => hmax x ⟨hx, hb⟩
  refine ⟨z, mem_kept.2 ⟨hz.1, .inr ⟨rule, hrule, ?_, ?_⟩⟩, hz.2, hnewest⟩
  · rw [hz.2]
    exact hnewest
  · rw [hz.2]
    exact hlast

/-- **The last buckets are all still there.**  Where fewer than `count` buckets later than `b` are
left, none of them went. -/
theorem above_kept (hrule : rule ∈ rules)
    (h : (above rule.bucketOf (kept rules key s) b).card < rule.count) :
    above rule.bucketOf (kept rules key s) b = above rule.bucketOf s b := by
  refine (above_mono kept_subset).antisymm fun c hc => ?_
  -- from the latest bucket down: the buckets after `c` are still there, and fewer than `count`
  induction hcard : (above rule.bucketOf s c).card using Nat.strong_induction_on generalizing c with
  | _ n ih =>
    simp only [above, Finset.mem_filter, Finset.mem_image] at hc
    obtain ⟨⟨y, hy, rfl⟩, hb⟩ := hc
    have hlater : above rule.bucketOf s (rule.bucketOf y) ⊆
        (above rule.bucketOf (kept rules key s) b) := by
      intro d hd
      have hdy : rule.bucketOf y < d := (mem_above.1 hd).2
      have hdb : d ∈ above rule.bucketOf s b := by
        simp only [above, Finset.mem_filter] at hd ⊢
        exact ⟨hd.1, hb.trans hd.2⟩
      refine ih _ ?_ d hdb rfl
      rw [← hcard]
      refine Finset.card_lt_card ⟨fun e he => ?_, fun hsub => ?_⟩
      · simp only [above, Finset.mem_filter] at he ⊢
        exact ⟨he.1, hdy.trans he.2⟩
      · have hd' := hsub hd
        simp only [above, Finset.mem_filter] at hd'
        exact lt_irrefl _ hd'.2
    obtain ⟨z, hz, hzb, -⟩ := @exists_picked _ _ _ _ _ _ _ key _ _ hrule hy
      (lt_of_le_of_lt (Finset.card_le_card hlater) h)
    simp only [above, Finset.mem_filter, Finset.mem_image]
    exact ⟨⟨z, hz, hzb⟩, hb⟩

variable [DecidableEq α]

/-- So whether a bucket is one of the last does not depend on what was let go, also after one more
thing came in. -/
theorem above_insert_kept (hrule : rule ∈ rules) :
    (above rule.bucketOf (insert x (kept rules key s)) b).card < rule.count ↔
      (above rule.bucketOf (insert x s) b).card < rule.count := by
  constructor
  · intro h
    have hless : (above rule.bucketOf (kept rules key s) b).card < rule.count :=
      lt_of_le_of_lt (Finset.card_le_card (above_mono (Finset.subset_insert _ _))) h
    have hsame := above_kept hrule hless
    have : above rule.bucketOf (insert x (kept rules key s)) b = above rule.bucketOf (insert x s) b := by
      simp only [above, Finset.image_insert, Finset.filter_insert] at hsame ⊢
      rw [hsame]
    rwa [← this]
  · intro h
    exact lt_of_le_of_lt
      (Finset.card_le_card (above_mono (Finset.insert_subset_insert _ kept_subset))) h

/-! ## 2. What is let go is not missed -/

/-- A thing that stays once more has come in was kept before. -/
theorem stays_of_insert (hy : y ∈ s) (h : Stays rules key (insert x s) y) : y ∈ kept rules key s := by
  refine mem_kept.2 ⟨hy, ?_⟩
  rcases h with hmax | ⟨rule, hrule, hnewest, hlast⟩
  · exact .inl fun z hz => hmax z (Finset.mem_insert_of_mem hz)
  · exact .inr ⟨rule, hrule, fun z hz => hnewest z (Finset.mem_insert_of_mem hz),
      lt_of_le_of_lt (Finset.card_le_card (above_mono (Finset.subset_insert _ _))) hlast⟩

theorem picks_insert_kept (hrule : rule ∈ rules) :
    rule.Picks key (insert x (kept rules key s)) y ↔ rule.Picks key (insert x s) y := by
  unfold Rule.Picks
  rw [above_insert_kept hrule, and_congr_left_iff]
  intro hlast
  constructor
  · intro hnewest z hz hb
    rcases Finset.mem_insert.1 hz with rfl | hz
    · exact hnewest z (Finset.mem_insert_self _ _) hb
    · -- the newest of the bucket before was kept, and is not newer than `y`
      have hlast' : (above rule.bucketOf s (rule.bucketOf z)).card < rule.count := by
        rw [hb]
        exact lt_of_le_of_lt (Finset.card_le_card (above_mono (Finset.subset_insert _ _))) hlast
      obtain ⟨w, hw, hwb, hmax⟩ := @exists_picked _ _ _ _ _ _ _ key _ _ hrule hz hlast'
      exact (hmax z hz rfl).trans (hnewest w (Finset.mem_insert_of_mem hw) (hwb.trans hb))
  · exact fun hnewest z hz =>
      hnewest z (Finset.insert_subset_insert _ kept_subset hz)

theorem stays_insert_kept : Stays rules key (insert x (kept rules key s)) y ↔
    Stays rules key (insert x s) y := by
  unfold Stays
  refine or_congr ?_ (exists_congr fun rule => and_congr_right fun hrule => picks_insert_kept hrule)
  constructor
  · intro hmax z hz
    rcases Finset.mem_insert.1 hz with rfl | hz
    · exact hmax z (Finset.mem_insert_self _ _)
    · obtain ⟨w, hw, hnewest⟩ := @exists_newest _ _ _ _ _ rules key _ _ hz
      exact (hnewest z hz).trans (hmax w (Finset.mem_insert_of_mem hw))
  · exact fun hmax z hz => hmax z (Finset.insert_subset_insert _ kept_subset hz)

/-- **Thinning forgets nothing it would need.** -/
theorem kept_insert_kept : kept rules key (insert x (kept rules key s)) = kept rules key (insert x s) := by
  ext y
  rw [mem_kept, mem_kept, stays_insert_kept, and_congr_left_iff]
  intro hstays
  constructor
  · exact fun hy => Finset.insert_subset_insert _ kept_subset hy
  · intro hy
    rcases Finset.mem_insert.1 hy with rfl | hy
    · exact Finset.mem_insert_self _ _
    · exact Finset.mem_insert_of_mem (stays_of_insert hy hstays)

/-- What was kept once is kept again. -/
theorem kept_kept : kept rules key (kept rules key s) = kept rules key s := by
  rcases (kept rules key s).eq_empty_or_nonempty with hnone | ⟨x, hx⟩
  · rw [hnone]
    simp [kept]
  · have h := @kept_insert_kept _ _ _ _ _ rules key s x _
    rwa [Finset.insert_eq_self.2 hx, Finset.insert_eq_self.2 (kept_subset hx)] at h

/-- **Thinning after each new thing leaves what thinning everything at once leaves.** -/
theorem foldl_kept (xs : List α) :
    xs.foldl (fun s x => kept rules key (insert x s)) ∅ = kept rules key xs.toFinset := by
  induction xs using List.reverseRecOn with
  | nil => simp
  | append_singleton xs x ih =>
    have hlast : (xs ++ [x]).toFinset = insert x xs.toFinset := by
      ext y
      simp
    rw [List.foldl_append, ih, hlast]
    exact kept_insert_kept

end

/-! ## 3. From the newest on -/

section
variable {α β κ : Type} [LinearOrder β] [LinearOrder κ]

/-- Equality in a linear order is lawful. -/
local instance lawfulBEq : LawfulBEq β := inferInstance

/-- Each thing that opens a bucket, until `count` buckets are open. -/
def firsts (bucketOf : α → β) (count : Nat) : List α → List β → List α
  | [], _ => []
  | x :: order, seen =>
    if count ≤ seen.length then []
    else if bucketOf x ∈ seen then firsts bucketOf count order seen
    else x :: firsts bucketOf count order (bucketOf x :: seen)

theorem map_firsts {γ : Type} {bucketOf : α → β} {bucketOf' : γ → β} {f : α → γ} {count : Nat} :
    ∀ {order : List α} {seen : List β}, (∀ x ∈ order, bucketOf x = bucketOf' (f x)) →
      (firsts bucketOf count order seen).map f = firsts bucketOf' count (order.map f) seen
  | [], _, _ => rfl
  | x :: order, seen, h => by
    have hrest : ∀ seen, (firsts bucketOf count order seen).map f =
        firsts bucketOf' count (order.map f) seen :=
      fun _ => map_firsts fun y hy => h y (List.mem_cons_of_mem _ hy)
    simp only [firsts, List.map_cons, ← h x List.mem_cons_self]
    split
    · rfl
    · split
      · exact hrest _
      · rw [List.map_cons, hrest]

theorem firsts_subset {bucketOf : α → β} {count : Nat} {x : α} :
    ∀ {order : List α} {seen : List β}, x ∈ firsts bucketOf count order seen → x ∈ order
  | [], _, h => by cases h
  | y :: order, seen, h => by
    simp only [firsts] at h
    split at h
    · cases h
    · split at h
      · exact List.mem_cons_of_mem _ (firsts_subset h)
      · rcases List.mem_cons.1 h with rfl | h
        · exact List.mem_cons_self
        · exact List.mem_cons_of_mem _ (firsts_subset h)

variable [DecidableEq α] {rule : Rule α β} {key : α → κ} {x : α}

/-- What the loop has to do from the middle of the list: `done` is behind it, `seen` are its
buckets. -/
theorem mem_firsts_from (hmono : ∀ x y, key x ≤ key y → rule.bucketOf x ≤ rule.bucketOf y) :
    ∀ {order done : List α} {seen : List β}, (done ++ order).Pairwise (fun x y => key y < key x) →
      seen.Nodup → (∀ b, b ∈ seen ↔ ∃ p ∈ done, rule.bucketOf p = b) →
      (x ∈ firsts rule.bucketOf rule.count order seen ↔
        x ∈ order ∧ rule.Picks key (done ++ order).toFinset x)
  | [], done, seen, _, _, _ => by simp [firsts]
  | y :: order, done, seen, hnewer, hnodup, hseen => by
    have hback : ∀ p ∈ done, ∀ z ∈ y :: order, key z < key p :=
      fun p hp z hz => (List.pairwise_append.1 hnewer).2.2 p hp z hz
    have hy : ∀ z ∈ order, key z < key y :=
      (List.pairwise_cons.1 (List.pairwise_append.1 hnewer).2.1).1
    -- a bucket that is open was opened by something newer
    have hopen : ∀ z ∈ y :: order, rule.bucketOf z ∈ seen →
        ¬ rule.Picks key (done ++ y :: order).toFinset z := by
      rintro z hz hmem ⟨hnewest, -⟩
      obtain ⟨p, hp, hb⟩ := (hseen _).1 hmem
      exact absurd (hnewest p (by simp [hp]) hb) (not_le.2 (hback p hp z hz))
    have hcons : (done ++ [y]) ++ order = done ++ y :: order := by simp
    simp only [firsts]
    split
    next hfull =>
      constructor
      · intro h
        cases h
      · rintro ⟨hx, hpicks⟩
        have hsub : seen.toFinset ⊆ above rule.bucketOf (done ++ y :: order).toFinset (rule.bucketOf x) := by
          intro b hb
          obtain ⟨p, hp, rfl⟩ := (hseen b).1 (List.mem_toFinset.1 hb)
          refine mem_above.2 ⟨⟨p, by simp [hp], rfl⟩, lt_of_le_of_ne (hmono _ _ (hback p hp x hx).le) ?_⟩
          intro heq
          exact hopen x hx ((hseen _).2 ⟨p, hp, heq.symm⟩) hpicks
        have hcard := Finset.card_le_card hsub
        rw [List.toFinset_card_of_nodup hnodup] at hcard
        exact absurd hpicks.2 (by omega)
    next hroom =>
      split
      next hold =>
        have ih := @mem_firsts_from hmono order (done ++ [y]) seen
          (by rwa [hcons]) hnodup (fun b => by
            rw [hseen b]
            constructor
            · rintro ⟨p, hp, hb⟩
              exact ⟨p, by simp [hp], hb⟩
            · rintro ⟨p, hp, hb⟩
              rcases List.mem_append.1 hp with hp | hp
              · exact ⟨p, hp, hb⟩
              · obtain ⟨q, hq, hqb⟩ := (hseen _).1 hold
                rw [List.mem_singleton.1 hp] at hb
                exact ⟨q, hq, hqb.trans hb⟩)
        rw [hcons] at ih
        rw [ih]
        constructor
        · exact fun h => ⟨List.mem_cons_of_mem _ h.1, h.2⟩
        · rintro ⟨hx, hpicks⟩
          rcases List.mem_cons.1 hx with rfl | hx
          · exact absurd hpicks (hopen x List.mem_cons_self hold)
          · exact ⟨hx, hpicks⟩
      next hnew =>
        have ih := @mem_firsts_from hmono order (done ++ [y])
          (rule.bucketOf y :: seen) (by rwa [hcons]) (List.nodup_cons.2 ⟨hnew, hnodup⟩) (fun b => by
            simp only [List.mem_cons, hseen b, List.mem_append, List.not_mem_nil, or_false]
            constructor
            · rintro (rfl | ⟨p, hp, hb⟩)
              · exact ⟨y, by simp, rfl⟩
              · exact ⟨p, .inl hp, hb⟩
            · rintro ⟨p, hp | hp, hb⟩
              · exact .inr ⟨p, hp, hb⟩
              · rw [hp] at hb
                exact .inl hb.symm)
        rw [hcons] at ih
        -- the buckets later than this one are those that are open
        have hpicks : rule.Picks key (done ++ y :: order).toFinset y := by
          constructor
          · intro z hz hb
            rcases List.mem_append.1 (List.mem_toFinset.1 hz) with hz | hz
            · exact absurd ((hseen _).2 ⟨z, hz, hb⟩) hnew
            · rcases List.mem_cons.1 hz with rfl | hz
              · exact le_rfl
              · exact (hy z hz).le
          · refine lt_of_le_of_lt (Finset.card_le_card (t := seen.toFinset) fun b hb => ?_) ?_
            · obtain ⟨⟨z, hz, rfl⟩, hlt⟩ := mem_above.1 hb
              rcases List.mem_append.1 (List.mem_toFinset.1 hz) with hz | hz
              · exact List.mem_toFinset.2 ((hseen _).2 ⟨z, hz, rfl⟩)
              · rcases List.mem_cons.1 hz with rfl | hz
                · exact absurd hlt (lt_irrefl _)
                · exact absurd (hmono z y (hy z hz).le) (not_le.2 hlt)
            · rw [List.toFinset_card_of_nodup hnodup]
              omega
        rw [List.mem_cons, ih, List.mem_cons]
        constructor
        · rintro (rfl | h)
          · exact ⟨.inl rfl, hpicks⟩
          · exact ⟨.inr h.1, h.2⟩
        · rintro ⟨rfl | hx, hpicks'⟩
          · exact .inl rfl
          · exact .inr ⟨hx, hpicks'⟩

/-- **The loop keeps what the rule picks**, where the list begins with the newest thing and later
things are not in earlier buckets. -/
theorem mem_firsts {order : List α} (hmono : ∀ x y, key x ≤ key y → rule.bucketOf x ≤ rule.bucketOf y)
    (hnewer : order.Pairwise fun x y => key y < key x) :
    x ∈ firsts rule.bucketOf rule.count order [] ↔ x ∈ order ∧ rule.Picks key order.toFinset x :=
  @mem_firsts_from _ _ _ _ _ _ _ _ _ hmono _ [] _ hnewer List.nodup_nil (by simp)

omit [DecidableEq α] in
/-- The newest thing is the first one. -/
theorem mem_take_one {order : List α} (hnewer : order.Pairwise fun x y => key y < key x) :
    x ∈ order.take 1 ↔ x ∈ order ∧ ∀ y ∈ order, key y ≤ key x := by
  cases order with
  | nil => simp
  | cons z order =>
    obtain ⟨hz, -⟩ := List.pairwise_cons.1 hnewer
    simp only [List.take_succ_cons, List.take_zero, List.mem_cons, List.not_mem_nil, or_false]
    constructor
    · rintro rfl
      refine ⟨.inl rfl, ?_⟩
      rintro y (rfl | hy)
      · exact le_rfl
      · exact (hz y hy).le
    · rintro ⟨rfl | hx, hmax⟩
      · rfl
      · exact absurd (hmax z (.inl rfl)) (not_le.2 (hz x hx))

end

end UwuMail.Buckets
