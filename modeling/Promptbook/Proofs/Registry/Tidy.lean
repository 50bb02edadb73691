import Promptbook.Proofs.Registry.Changes

namespace Promptbook.Registry

open Entries (Under)

variable {h : Heap} {r : Registry} {K : Prompt → Prop} {p q : Prompt} {name : Value} {c : Category}

/-- Keys and shelves lead to the same prompts, one for each id, and each of these is on the shelf of
its category alone. -/
structure Tidy (r : Registry) : Prop where
  single : ∀ p q, r.Registered p → r.Registered q → idText p = idText q → p = q
  mem_iff : ∀ c q, q ∈ r.shelves c ↔ r.Registered q ∧ q.category = c

theorem tidy_empty : Tidy {} where
  single _ _ hp := by
    obtain ⟨e, he, -⟩ := hp
    cases he
  mem_iff c q := by
    constructor
    · intro hq
      cases hq
    · rintro ⟨⟨e, he, -⟩, -⟩
      cases he

/-- No prompt loses its last key to the one registered, but for one of the same id that gives way to
it. -/
structure Fits (r : Registry) (name : Value) (p : Prompt) : Prop where
  keeper : ∀ q, Under r.entries (idText p) q → idText q = idText p
  others : ∀ q, r.Registered q → idText q ≠ idText p →
    ∃ t, Under r.entries t q ∧ t ≠ name.asText?
  same : ∀ q, r.Registered q → q ≠ p → idText q = idText p →
    Under r.entries (idText p) q ∨
      q.category = p.category ∧ ∀ t, Under r.entries t q → t = name.asText?

theorem Fits.registered_iff (hf : r.Fits name p) (hK : Family K) (hs : Stocked K r)
    (hn : name.Worded) (hp : K p) :
    (r.register h name (some p)).1.Registered q ↔
      q = p ∨ r.Registered q ∧ idText q ≠ idText p := by
  constructor
  · intro hq
    obtain ⟨t, ht⟩ := Registry.registered_iff.1 hq
    rcases (under_register hK hs hn hp).1 ht with ⟨-, rfl⟩ | ⟨hne, -, ⟨hu, ho⟩ | ⟨rfl, -⟩⟩
    · exact .inl rfl
    · by_cases hqp : q = p
      · exact .inl hqp
      · refine .inr ⟨registered_of_under hu, fun he => ?_⟩
        rcases hf.same q (registered_of_under hu) hqp he with hr | ⟨-, hall⟩
        · exact ho ⟨hr, hqp⟩
        · exact hne (hall t hu)
    · exact .inl rfl
  · rintro (rfl | ⟨hq, hne⟩)
    · exact registered_of_under ((under_register hK hs hn hp).2 (.inl ⟨.inr rfl, rfl⟩))
    · obtain ⟨t, hu, htn⟩ := hf.others q hq hne
      have hti : t ≠ idText p := fun he => hne (hf.keeper q (he ▸ hu))
      have ho : ¬ r.Replaced p q := fun ho => hne (hf.keeper q ho.1)
      exact registered_of_under
        ((under_register hK hs hn hp).2 (.inr ⟨htn, hti, .inl ⟨hu, ho⟩⟩))

theorem Fits.mem_shelf_iff (hf : r.Fits name p) (ht : Tidy r) (hK : Family K) (hs : Stocked K r)
    (hn : name.Worded) (hp : K p) :
    q ∈ (r.register h name (some p)).1.shelves c ↔
      q = p ∧ p.category = c ∨ q ∈ r.shelves c ∧ idText q ≠ idText p := by
  by_cases hc : c = p.category
  · subst hc
    rw [register_shelf_self hn (hK.worded p hp), mem_place hK hp (hs.shelved _) (hs.nodup _)]
    simp
  · rw [register_shelf_of_ne hn (hK.worded p hp) hc, mem_follow_shelf hK hs hp hc]
    have hne : p.category ≠ c := Ne.symm hc
    simp only [hne, and_false, false_or]
    refine and_congr_right fun hq => ⟨fun hold he => ?_, fun he _ _ _ => he⟩
    obtain ⟨hr, hqc⟩ := (ht.mem_iff c q).1 hq
    have hqp : q ≠ p := fun hqp => hne (hqp ▸ hqc)
    rcases hf.same q hr hqp he with hu | ⟨hcat, -⟩
    · exact hold q ⟨hu, hqp⟩ hqc he
    · exact hc (hqc.symm.trans hcat)

theorem Tidy.register (ht : Tidy r) (hf : r.Fits name p) (hK : Family K) (hs : Stocked K r)
    (hn : name.Worded) (hp : K p) : Tidy (r.register h name (some p)).1 where
  single d e hd he heq := by
    rw [hf.registered_iff hK hs hn hp] at hd he
    rcases hd with rfl | ⟨hd, hdp⟩ <;> rcases he with rfl | ⟨he, hep⟩
    · rfl
    · exact (hep heq.symm).elim
    · exact (hdp heq).elim
    · exact ht.single d e hd he heq
  mem_iff c q := by
    rw [hf.mem_shelf_iff ht hK hs hn hp, hf.registered_iff hK hs hn hp, ht.mem_iff]
    constructor
    · rintro (⟨rfl, hc⟩ | ⟨⟨hr, hc⟩, hne⟩)
      · exact ⟨.inl rfl, hc⟩
      · exact ⟨.inr ⟨hr, hne⟩, hc⟩
    · rintro ⟨rfl | ⟨hr, hne⟩, hc⟩
      · exact .inl ⟨rfl, hc⟩
      · exact .inr ⟨⟨hr, hc⟩, hne⟩

/-- A prompt of another id stays on its shelf through a call. If the registry is tidy afterwards,
some key still leads to it. -/
theorem Tidy.exists_under_of_ne (ht : Tidy r) (ht' : Tidy (r.register h name (some p)).1)
    (hK : Family K) (hs : Stocked K r) (hn : name.Worded) (hp : K p) (hq : r.Registered q)
    (hne : idText q ≠ idText p) :
    ∃ t, t ≠ name.asText? ∧ Under r.entries t q ∧ ¬ r.Replaced p q := by
  have hwp := hK.worded p hp
  have hmem := (ht.mem_iff q.category q).2 ⟨hq, rfl⟩
  have hmem' : q ∈ (r.register h name (some p)).1.shelves q.category := by
    by_cases hc : q.category = p.category
    · rw [hc] at hmem ⊢
      rw [register_shelf_self hn hwp]
      exact (mem_place hK hp (hs.shelved _) (hs.nodup _)).2 (.inr ⟨hmem, hne⟩)
    · rw [register_shelf_of_ne hn hwp hc, mem_follow_shelf hK hs hp hc]
      exact ⟨hmem, fun _ _ _ => hne⟩
  obtain ⟨t, hu⟩ := Registry.registered_iff.1 ((ht'.mem_iff _ q).1 hmem').1
  rcases (under_register hK hs hn hp).1 hu with ⟨-, rfl⟩ | ⟨htn, -, ⟨hu, ho⟩ | ⟨rfl, -⟩⟩
  · exact (hne rfl).elim
  · exact ⟨t, htn, hu, ho⟩
  · exact (hne rfl).elim

theorem Tidy.fits (ht : Tidy r) (ht' : Tidy (r.register h name (some p)).1) (hK : Family K)
    (hs : Stocked K r) (hn : name.Worded) (hp : K p) : r.Fits name p := by
  have hunder := fun t q => under_register (h := h) (t := t) (q := q) hK hs hn hp
  have hwp := hK.worded p hp
  have hstay := fun q => ht.exists_under_of_ne (q := q) ht' hK hs hn hp
  have hkeeper : ∀ q, Under r.entries (idText p) q → idText q = idText p := by
    intro q hu
    by_contra hne
    obtain ⟨-, -, -, ho⟩ := hstay q (registered_of_under hu) hne
    exact ho ⟨hu, fun he => hne (he ▸ rfl)⟩
  refine ⟨hkeeper, fun q hq hne => ?_, fun q hq hqp he => ?_⟩
  · obtain ⟨t, htn, hu, -⟩ := hstay q hq hne
    exact ⟨t, hu, htn⟩
  · by_cases hfound : ∃ old, Under r.entries (idText p) old
    · obtain ⟨old, hu⟩ := hfound
      have hold := registered_of_under hu
      obtain rfl := ht.single q old hq hold (he.trans (hkeeper old hu).symm)
      exact .inl hu
    · -- nothing gives way, and the prompt may not stay beside the new one of its id
      have hnone : ∀ old, ¬ r.Replaced p old := fun old ho => hfound ⟨old, ho.1⟩
      have hgone : ¬ (r.register h name (some p)).1.Registered q := fun hr =>
        hqp (ht'.single q p hr (registered_of_under ((hunder _ p).2 (.inl ⟨.inr rfl, rfl⟩))) he)
      refine .inr ⟨?_, fun t hu => ?_⟩
      · by_contra hc
        have hmem := (ht.mem_iff q.category q).2 ⟨hq, rfl⟩
        refine hgone ((ht'.mem_iff q.category q).1 ?_).1
        rw [register_shelf_of_ne hn hwp hc, mem_follow_shelf hK hs hp hc]
        exact ⟨hmem, fun old ho => (hnone old ho).elim⟩
      · by_contra htn
        have hti : t ≠ idText p := fun hti => hfound ⟨q, hti ▸ hu⟩
        exact hgone (registered_of_under ((hunder t q).2 (.inr ⟨htn, hti, .inl ⟨hu, hnone q⟩⟩)))

theorem Tidy.remove (ht : Tidy r) (hK : Family K) (hs : Stocked K r) (hp : r.Registered p) :
    Tidy (r.remove h p) where
  single d e hd he heq := by
    rw [registered_remove hK hs (hs.registered p hp)] at hd he
    exact ht.single d e hd.1 he.1 heq
  mem_iff c q := by
    have hKp := hs.registered p hp
    rw [registered_remove hK hs hKp]
    by_cases hc : c = p.category
    · subst hc
      rw [remove_shelf_self, mem_clearId hK hKp (hs.shelved _), ht.mem_iff]
      constructor
      · rintro ⟨⟨hq, hqc⟩, hne⟩
        exact ⟨⟨hq, fun he => hne (he ▸ rfl)⟩, hqc⟩
      · rintro ⟨⟨hq, hne⟩, hqc⟩
        exact ⟨⟨hq, hqc⟩, fun he => hne (ht.single q p hq hp he)⟩
    · rw [remove_shelf_of_ne hc, ht.mem_iff]
      constructor
      · rintro ⟨hq, hqc⟩
        exact ⟨⟨hq, fun he => hc (he ▸ hqc.symm)⟩, hqc⟩
      · rintro ⟨⟨hq, -⟩, hqc⟩
        exact ⟨hq, hqc⟩

end Promptbook.Registry
