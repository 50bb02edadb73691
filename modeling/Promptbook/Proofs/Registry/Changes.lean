import Promptbook.Proofs.Registry.Keys
import Promptbook.Registry.Basic

namespace Promptbook.Registry

open Entries (Under Keyed)

variable {h : Heap} {r : Registry} {K : Prompt → Prop} {p q old : Prompt} {name : Value}
  {t : Option String} {c : Category} {shelf : List Prompt}

def idText (p : Prompt) : Option String :=
  p.id.asText?

def Registered (r : Registry) (q : Prompt) : Prop :=
  ∃ e ∈ r.entries, e.2 = q

theorem registered_iff : r.Registered q ↔ ∃ t, Under r.entries t q := by
  constructor
  · rintro ⟨e, he, rfl⟩
    exact ⟨_, e, he, rfl, rfl⟩
  · rintro ⟨-, e, he, -, rfl⟩
    exact ⟨e, he, rfl⟩

theorem registered_of_under (hu : Under r.entries t q) : r.Registered q :=
  registered_iff.2 ⟨t, hu⟩

structure Family (K : Prompt → Prop) : Prop where
  worded : ∀ p, K p → p.id.Worded
  serial : ∀ p q, K p → K q → p.serial = q.serial → p = q

namespace Family

theorem isSame_iff (hK : Family K) (hp : K p) (hq : K q) : isSame p q = true ↔ p = q := by
  rw [isSame, beq_iff_eq]
  exact ⟨hK.serial p q hp hq, fun he => he ▸ rfl⟩

theorem sameKey_iff (hK : Family K) (hp : K p) (hq : K q) :
    h.sameKey p.id q.id = true ↔ idText p = idText q :=
  (hK.worded p hp).sameKey_iff (hK.worded q hq)

end Family

/-- A registry that holds prompts of a family under texts, and one for each id on a shelf. -/
structure Stocked (K : Prompt → Prop) (r : Registry) : Prop where
  keyed : Keyed r.entries
  registered : ∀ q, r.Registered q → K q
  shelved : ∀ c, ∀ q ∈ r.shelves c, K q
  nodup : ∀ c, ((r.shelves c).map idText).Nodup

theorem Stocked.find?_iff (hs : Stocked K r) (hw : name.Worded) :
    r.find? h name = some q ↔ Under r.entries name.asText? q := by
  obtain ⟨t, ht, -⟩ := hw
  rw [ht]
  exact hs.keyed.find?_eq_some_iff ht

theorem stocked_empty : Stocked K {} where
  keyed := Entries.keyed_nil
  registered _ hq := by
    obtain ⟨e, he, -⟩ := hq
    cases he
  shelved _ _ hq := by cases hq
  nodup _ := List.nodup_nil

section Shelf

theorem mem_clearId (hK : Family K) (hp : K p) (hs : ∀ q ∈ shelf, K q) :
    q ∈ clearId h p.id shelf ↔ q ∈ shelf ∧ idText q ≠ idText p := by
  rw [clearId, List.mem_filter]
  apply and_congr_right
  intro hq
  rw [Bool.not_eq_true', Bool.eq_false_iff, ne_eq, hK.sameKey_iff (hs q hq) hp]

theorem nodup_clearId {id : Value} (hn : (shelf.map idText).Nodup) :
    ((clearId h id shelf).map idText).Nodup :=
  (List.filter_sublist.map _).nodup hn

theorem mem_place (hK : Family K) (hp : K p) (hs : ∀ q ∈ shelf, K q)
    (hn : (shelf.map idText).Nodup) :
    q ∈ place h p shelf ↔ q = p ∨ q ∈ shelf ∧ idText q ≠ idText p := by
  induction shelf with
  | nil => simp [place]
  | cons d shelf ih =>
    have hi := hK.sameKey_iff (h := h) (hs d List.mem_cons_self) hp
    obtain ⟨hd, hn⟩ := List.nodup_cons.1 hn
    have ih := ih (fun q hq => hs q (List.mem_cons_of_mem _ hq)) hn
    rw [place]
    split
    · next hsame =>
      have he := hi.1 hsame
      have hne : q ∈ shelf → idText q ≠ idText p := fun hq hqp =>
        hd (he.trans hqp.symm ▸ List.mem_map_of_mem hq)
      grind
    · next hsame =>
      have hne : idText d ≠ idText p := fun he => hsame (hi.2 he)
      grind

theorem nodup_place (hK : Family K) (hp : K p) (hs : ∀ q ∈ shelf, K q)
    (hn : (shelf.map idText).Nodup) : ((place h p shelf).map idText).Nodup := by
  induction shelf with
  | nil => simp [place]
  | cons d shelf ih =>
    have hi := hK.sameKey_iff (h := h) (hs d List.mem_cons_self) hp
    have hs' : ∀ q ∈ shelf, K q := fun q hq => hs q (List.mem_cons_of_mem _ hq)
    obtain ⟨hd, hn⟩ := List.nodup_cons.1 hn
    rw [place]
    split
    · next hsame => exact List.nodup_cons.2 ⟨hi.1 hsame ▸ hd, hn⟩
    · next hsame =>
      refine List.nodup_cons.2 ⟨fun hm => ?_, ih hs' hn⟩
      obtain ⟨q, hq, he⟩ := List.mem_map.1 hm
      rcases (mem_place hK hp hs' hn).1 hq with rfl | ⟨hq, -⟩
      · exact hsame (hi.2 he.symm)
      · exact hd (he ▸ List.mem_map_of_mem hq)

end Shelf

section Follow

def Replaced (r : Registry) (p old : Prompt) : Prop :=
  Under r.entries (idText p) old ∧ old ≠ p

theorem Replaced.unique (hs : Stocked K r) (ho : r.Replaced p old) (hq : r.Replaced p q)
    (hw : p.id.Worded) : q = old := by
  have h₁ := (hs.find?_iff (h := .empty) hw).2 ho.1
  have h₂ := (hs.find?_iff (h := .empty) hw).2 hq.1
  exact Option.some.inj (h₂.symm.trans h₁)

/-- The registry in which the keys of a prompt lead to another and it is off the shelf of another
category. -/
def supersede (h : Heap) (r : Registry) (old p : Prompt) : Registry :=
  let moved : Registry :=
    { r with entries := r.entries.map fun e => if isSame e.2 old then (e.1, p) else e }
  if old.category = p.category then moved
  else moved.setShelf old.category (clearId h p.id (moved.shelves old.category))

/-- Either no prompt is replaced and nothing changes, or the one that is gives way. -/
theorem follow_cases (hK : Family K) (hs : Stocked K r) (hp : K p) :
    (∀ old, ¬ r.Replaced p old) ∧ r.follow h p = r ∨
      ∃ old, r.Replaced p old ∧ r.follow h p = supersede h r old p := by
  have hf := fun old => hs.find?_iff (h := h) (q := old) (hK.worded p hp)
  rw [follow]
  cases hr : r.find? h p.id with
  | none =>
    refine .inl ⟨fun old ho => ?_, rfl⟩
    rw [(hf old).2 ho.1] at hr
    cases hr
  | some old =>
    have hu := (hf old).1 hr
    have hi := hK.isSame_iff (hs.registered old (registered_of_under hu)) hp
    by_cases hsame : isSame old p = true
    · refine .inl ⟨fun d hd => ?_, by simp only [hsame, if_true]⟩
      rw [(hf d).2 hd.1, Option.some.injEq] at hr
      exact hd.2 (hr.trans (hi.1 hsame))
    · refine .inr ⟨old, ⟨hu, fun he => hsame (hi.2 he)⟩, ?_⟩
      simp only [hsame, if_false, Bool.false_eq_true]
      rfl

theorem follow_shelf_self : (r.follow h p).shelves p.category = r.shelves p.category := by
  rw [follow]
  split
  · rfl
  · split
    · rfl
    · split
      · rfl
      · next hc => simp [setShelf, Ne.symm hc]

theorem under_follow (hK : Family K) (hs : Stocked K r) (hp : K p) :
    Under (r.follow h p).entries t q ↔
      Under r.entries t q ∧ ¬ r.Replaced p q ∨
        q = p ∧ ∃ old, r.Replaced p old ∧ Under r.entries t old := by
  rcases follow_cases (h := h) hK hs hp with ⟨hn, hr⟩ | ⟨old, ho, hr⟩
  · simp [hr, hn]
  · have hold := hs.registered old (registered_of_under ho.1)
    have hone : ∀ d, r.Replaced p d ↔ d = old := fun d =>
      ⟨fun hd => ho.unique hs hd (hK.worded p hp), fun hd => hd ▸ ho⟩
    have he : (r.follow h p).entries =
        r.entries.map fun e => if isSame e.2 old then (e.1, p) else e := by
      rw [hr, supersede]
      split <;> rfl
    simp only [he, hone, exists_eq_left]
    constructor
    · rintro ⟨e, hm, rfl, rfl⟩
      obtain ⟨d, hd, rfl⟩ := List.mem_map.1 hm
      have hi := hK.isSame_iff (hs.registered d.2 ⟨d, hd, rfl⟩) hold
      split
      · next hsame => exact .inr ⟨rfl, d, hd, rfl, hi.1 hsame⟩
      · next hsame => exact .inl ⟨⟨d, hd, rfl, rfl⟩, fun he => hsame (hi.2 he)⟩
    · rintro (⟨⟨d, hd, rfl, rfl⟩, hne⟩ | ⟨rfl, d, hd, rfl, rfl⟩)
      · have hi := hK.isSame_iff (hs.registered d.2 ⟨d, hd, rfl⟩) hold
        exact ⟨d, List.mem_map.2 ⟨d, hd, if_neg fun hsame => hne (hi.1 hsame)⟩, rfl, rfl⟩
      · exact ⟨(d.1, q), List.mem_map.2 ⟨d, hd, if_pos ((hK.isSame_iff hold hold).2 rfl)⟩, rfl, rfl⟩

theorem mem_follow_shelf (hK : Family K) (hs : Stocked K r) (hp : K p) (hc : c ≠ p.category) :
    q ∈ (r.follow h p).shelves c ↔
      q ∈ r.shelves c ∧ ∀ old, r.Replaced p old → old.category = c → idText q ≠ idText p := by
  rcases follow_cases (h := h) hK hs hp with ⟨hn, hr⟩ | ⟨old, ho, hr⟩
  · rw [hr]
    exact ⟨fun hq => ⟨hq, fun old ho => (hn old ho).elim⟩, fun hq => hq.1⟩
  · have hone : ∀ d, r.Replaced p d → d = old := fun d hd => ho.unique hs hd (hK.worded p hp)
    rw [hr, supersede]
    split
    · next he =>
      refine ⟨fun hq => ⟨hq, fun d hd hdc => ?_⟩, fun hq => hq.1⟩
      rw [hone d hd, he] at hdc
      exact (hc hdc.symm).elim
    · by_cases hoc : c = old.category
      · subst hoc
        simp only [setShelf, if_true]
        rw [mem_clearId hK hp (hs.shelved _)]
        exact and_congr_right fun _ => ⟨fun hq _ _ _ => hq, fun hq => hq old ho rfl⟩
      · simp only [setShelf, if_neg hoc]
        refine ⟨fun hq => ⟨hq, fun d hd hdc => ?_⟩, fun hq => hq.1⟩
        rw [hone d hd] at hdc
        exact (hoc hdc.symm).elim

theorem nodup_follow_shelf (hn : ((r.shelves c).map idText).Nodup) :
    (((r.follow h p).shelves c).map idText).Nodup := by
  rw [follow]
  split
  · exact hn
  · next old _ =>
    split
    · exact hn
    · split
      · exact hn
      · by_cases hoc : c = old.category
        · subst hoc
          simpa [setShelf] using nodup_clearId hn
        · simpa [setShelf, hoc] using hn

theorem keyed_follow (hk : Keyed r.entries) : Keyed (r.follow h p).entries := by
  rw [follow]
  split
  · exact hk
  · split
    · exact hk
    · split
      all_goals exact hk.map fun e => by split <;> rfl

theorem Stocked.follow (hK : Family K) (hs : Stocked K r) (hp : K p) :
    Stocked K (r.follow h p) where
  keyed := keyed_follow hs.keyed
  registered q hq := by
    obtain ⟨t, ht⟩ := registered_iff.1 hq
    rcases (under_follow hK hs hp).1 ht with ⟨hu, -⟩ | ⟨rfl, -⟩
    · exact hs.registered q (registered_of_under hu)
    · exact hp
  shelved c q hq := by
    by_cases hc : c = p.category
    · rw [hc, follow_shelf_self] at hq
      exact hs.shelved _ q hq
    · exact hs.shelved c q ((mem_follow_shelf hK hs hp hc).1 hq).1
  nodup c := nodup_follow_shelf (hs.nodup c)

end Follow

section Register

theorem register_eq (hn : name.Worded) (hw : p.id.Worded) :
    (r.register h name (some p)).1 = (r.follow h p).insert h name p := by
  simp only [register, hn.truth, hw.truth, hw.checkKey, hn.checkKey]

theorem under_insert (hk : Keyed r.entries) (hn : name.Worded) (hw : p.id.Worded) :
    Under (r.insert h name p).entries t q ↔
      (t = name.asText? ∨ t = idText p) ∧ q = p ∨
        t ≠ name.asText? ∧ t ≠ idText p ∧ Under r.entries t q := by
  change Under (Entries.put h p.id p (Entries.put h name p r.entries)) t q ↔ _
  rw [(hk.put hn).under_put hw, hk.under_put hn]
  change t = idText p ∧ _ ∨ t ≠ idText p ∧ _ ↔ _
  grind

theorem under_register (hK : Family K) (hs : Stocked K r) (hn : name.Worded) (hp : K p) :
    Under (r.register h name (some p)).1.entries t q ↔
      (t = name.asText? ∨ t = idText p) ∧ q = p ∨
        t ≠ name.asText? ∧ t ≠ idText p ∧
          (Under r.entries t q ∧ ¬ r.Replaced p q ∨
            q = p ∧ ∃ old, r.Replaced p old ∧ Under r.entries t old) := by
  rw [register_eq hn (hK.worded p hp),
    under_insert (hs.follow hK hp).keyed hn (hK.worded p hp), under_follow hK hs hp]

theorem register_shelf_self (hn : name.Worded) (hw : p.id.Worded) :
    (r.register h name (some p)).1.shelves p.category = place h p (r.shelves p.category) := by
  rw [register_eq hn hw]
  simp only [insert, setShelf, if_true, follow_shelf_self]

theorem register_shelf_of_ne (hn : name.Worded) (hw : p.id.Worded) (hc : c ≠ p.category) :
    (r.register h name (some p)).1.shelves c = (r.follow h p).shelves c := by
  rw [register_eq hn hw]
  simp only [insert, setShelf, if_neg hc]

theorem Stocked.register (hK : Family K) (hs : Stocked K r) (hn : name.Worded) (hp : K p) :
    Stocked K (r.register h name (some p)).1 where
  keyed := by
    rw [register_eq hn (hK.worded p hp)]
    exact ((keyed_follow hs.keyed).put hn).put (hK.worded p hp)
  registered q hq := by
    obtain ⟨t, ht⟩ := registered_iff.1 hq
    rcases (under_register hK hs hn hp).1 ht with ⟨-, rfl⟩ | ⟨-, -, ⟨hu, -⟩ | ⟨rfl, -⟩⟩
    · exact hp
    · exact hs.registered q (registered_of_under hu)
    · exact hp
  shelved c q hq := by
    by_cases hc : c = p.category
    · subst hc
      rw [register_shelf_self hn (hK.worded p hp)] at hq
      rcases (mem_place hK hp (hs.shelved _) (hs.nodup _)).1 hq with rfl | ⟨hq, -⟩
      · exact hp
      · exact hs.shelved _ q hq
    · rw [register_shelf_of_ne hn (hK.worded p hp) hc] at hq
      exact (hs.follow hK hp).shelved c q hq
  nodup c := by
    by_cases hc : c = p.category
    · subst hc
      rw [register_shelf_self hn (hK.worded p hp)]
      exact nodup_place hK hp (hs.shelved _) (hs.nodup _)
    · rw [register_shelf_of_ne hn (hK.worded p hp) hc]
      exact nodup_follow_shelf (hs.nodup c)

end Register

section Unregister

theorem under_remove (hK : Family K) (hs : Stocked K r) (hp : K p) :
    Under (r.remove h p).entries t q ↔ Under r.entries t q ∧ q ≠ p := by
  have he : (r.remove h p).entries = r.entries.filter fun e => !isSame e.2 p := rfl
  simp only [Under, he, List.mem_filter, Bool.not_eq_true', Bool.eq_false_iff, ne_eq]
  constructor
  · rintro ⟨e, ⟨hm, hne⟩, rfl, rfl⟩
    have hi := hK.isSame_iff (hs.registered e.2 ⟨e, hm, rfl⟩) hp
    exact ⟨⟨e, hm, rfl, rfl⟩, fun he => hne (hi.2 he)⟩
  · rintro ⟨⟨e, hm, rfl, rfl⟩, hne⟩
    have hi := hK.isSame_iff (hs.registered e.2 ⟨e, hm, rfl⟩) hp
    exact ⟨e, ⟨hm, fun he => hne (hi.1 he)⟩, rfl, rfl⟩

theorem registered_remove (hK : Family K) (hs : Stocked K r) (hp : K p) :
    (r.remove h p).Registered q ↔ r.Registered q ∧ q ≠ p := by
  simp only [registered_iff, under_remove hK hs hp, exists_and_right]

theorem remove_shelf_self : (r.remove h p).shelves p.category =
    clearId h p.id (r.shelves p.category) := by
  simp only [remove, setShelf, if_true]

theorem remove_shelf_of_ne (hc : c ≠ p.category) : (r.remove h p).shelves c = r.shelves c := by
  simp only [remove, setShelf, if_neg hc]

theorem Stocked.remove (hK : Family K) (hs : Stocked K r) (hp : K p) :
    Stocked K (r.remove h p) where
  keyed := hs.keyed.filter _
  registered q hq := hs.registered q ((registered_remove hK hs hp).1 hq).1
  shelved c q hq := by
    by_cases hc : c = p.category
    · subst hc
      rw [remove_shelf_self] at hq
      exact hs.shelved _ q ((mem_clearId hK hp (hs.shelved _)).1 hq).1
    · rw [remove_shelf_of_ne hc] at hq
      exact hs.shelved c q hq
  nodup c := by
    by_cases hc : c = p.category
    · rw [hc, remove_shelf_self]
      exact nodup_clearId (hs.nodup _)
    · rw [remove_shelf_of_ne hc]
      exact hs.nodup c

end Unregister

end Promptbook.Registry
