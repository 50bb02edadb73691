import Mathlib.Algebra.GroupWithZero.Nat
import Mathlib.Data.List.Perm.Subperm
import Promptbook.Proofs.Registry.Tidy

namespace Promptbook

namespace Registry

variable {h : Heap} {r : Registry} {K : Prompt → Prop}

/-- The views of a registry agree: the ids listed are those on the shelves, each prompt that a key
leads to is once on the shelf of its category and on no other, and the prompts counted are as many
as those on the shelves. -/
structure Agrees (h : Heap) (r : Registry) : Prop where
  ids : ∃ ids, r.listIds h = .ok ids ∧
    ∀ t, t ∈ ids.map Value.asText? ↔ ∃ c, ∃ q ∈ r.shelves c, q.id.asText? = t
  once : ∀ q, r.Registered q → ∀ c,
    (r.shelves c).countP (isSame q) = if c = q.category then 1 else 0
  totals : ∃ n counts, r.stats h = .ok (n, counts) ∧ n = (counts.map (·.2)).sum

def shelved (r : Registry) : List Prompt :=
  Category.all.flatMap r.shelves

theorem mem_shelved {q : Prompt} : q ∈ r.shelved ↔ ∃ c, q ∈ r.shelves c := by
  simp [shelved, Category.mem_all]

def InOrder (a b : Value) : Prop :=
  a.asText?.getD "" ≤ b.asText?.getD ""

theorem sortIds_of_texts {ids : List Value} (hw : ∀ v ∈ ids, v.Worded) :
    ∃ sorted, sortIds h ids = .ok sorted ∧ sorted.Perm ids ∧ sorted.Pairwise InOrder := by
  have hall : (ids.all fun id => id.asText?.isSome) = true := by
    rw [List.all_eq_true]
    intro v hv
    obtain ⟨t, ht, -⟩ := hw v hv
    rw [ht]
    rfl
  simp only [sortIds, hall, if_true]
  refine ⟨_, rfl, List.mergeSort_perm _ _, ?_⟩
  have htrans : ∀ a b c : Value, decide (a.asText?.getD "" ≤ b.asText?.getD "") = true →
      decide (b.asText?.getD "" ≤ c.asText?.getD "") = true →
      decide (a.asText?.getD "" ≤ c.asText?.getD "") = true := by
    intro a b c hab hbc
    exact decide_eq_true (String.le_trans (of_decide_eq_true hab) (of_decide_eq_true hbc))
  apply (List.pairwise_mergeSort htrans ?_ ids).imp
  · intro a b hab
    simpa [InOrder] using hab
  · intro a b
    simpa using String.le_total _ _

theorem Stocked.listIds_eq (hs : Stocked K r) (hK : Family K) :
    ∃ ids, r.listIds h = .ok ids ∧ ids.Pairwise InOrder ∧ (ids.map Value.asText?).Nodup ∧
      ∀ t, t ∈ ids.map Value.asText? ↔ ∃ q, r.Registered q ∧ idText q = t := by
  have hw : ∀ e ∈ (r.entries.map fun e => e.2.id).map fun id => (id, ()), e.1.Worded := by
    simp only [List.map_map, List.mem_map]
    rintro e ⟨d, hd, rfl⟩
    exact hK.worded _ (hs.registered _ ⟨d, hd, rfl⟩)
  obtain ⟨hk, hm⟩ := Entries.ofList_keys (h := h) hw
  have hids : ∀ v ∈ distinctIds h (r.entries.map fun e => e.2.id), v.Worded := by
    intro v hv
    obtain ⟨e, he, rfl⟩ := List.mem_map.1 hv
    exact hk.worded e he
  obtain ⟨ids, hids, hperm, hsorted⟩ := sortIds_of_texts (h := h) hids
  have htexts := hperm.map Value.asText?
  rw [distinctIds, List.map_map] at htexts
  refine ⟨ids, hids, hsorted, htexts.nodup_iff.2 hk.nodup, fun t => ?_⟩
  rw [htexts.mem_iff]
  apply (hm t).trans
  simp only [List.map_map, List.mem_map, Function.comp_def]
  constructor
  · rintro ⟨e, he, rfl⟩
    exact ⟨e.2, ⟨e, he, rfl⟩, rfl⟩
  · rintro ⟨-, ⟨e, he, rfl⟩, rfl⟩
    exact ⟨e, he, rfl⟩

theorem stats_eq {ids : List Value} (hids : r.listIds h = .ok ids) :
    r.stats h = .ok (ids.length, Category.all.map fun c => (c, (r.shelves c).length)) := by
  rw [stats, hids]
  rfl

theorem sum_counts :
    ((Category.all.map fun c => (c, (r.shelves c).length)).map (·.2)).sum = r.shelved.length := by
  rw [shelved, List.length_flatMap, List.map_map]
  rfl

theorem Stocked.countP_eq (hs : Stocked K r) (hK : Family K) {q : Prompt} (hq : K q)
    (c : Category) : (r.shelves c).countP (isSame q) = if q ∈ r.shelves c then 1 else 0 := by
  have hcount : (r.shelves c).countP (isSame q) = (r.shelves c).count q := by
    rw [List.count]
    apply List.countP_congr
    intro d hd
    rw [hK.isSame_iff hq (hs.shelved c d hd), beq_iff_eq]
    exact eq_comm
  rw [hcount, (hs.nodup c).of_map.count]

/-- Where the views agree there are as many ids as prompts on the shelves, so that no two of these
have the same. -/
theorem Stocked.tidy (hs : Stocked K r) (hK : Family K) (ha : r.Agrees h) : r.Tidy := by
  obtain ⟨ids, hids, -, hnodup, hmem⟩ := hs.listIds_eq (h := h) hK
  obtain ⟨ids', hids', hviews⟩ := ha.ids
  obtain ⟨n, counts, hstats, htotal⟩ := ha.totals
  obtain rfl := Except.ok.inj (hids'.symm.trans hids)
  obtain ⟨rfl, rfl⟩ := Prod.mk.inj (Except.ok.inj (hstats.symm.trans (stats_eq hids)))
  rw [sum_counts] at htotal
  have honce : ∀ q, r.Registered q → ∀ c, q ∈ r.shelves c ↔ c = q.category := by
    intro q hq c
    have hcount := ha.once q hq c
    rw [hs.countP_eq hK (hs.registered q hq)] at hcount
    grind
  have hsub : ids'.map Value.asText? ⊆ r.shelved.map idText := by
    intro t ht
    obtain ⟨c, q, hq, rfl⟩ := (hviews t).1 ht
    exact List.mem_map_of_mem (mem_shelved.2 ⟨c, hq⟩)
  have hperm : (ids'.map Value.asText?).Perm (r.shelved.map idText) :=
    (hnodup.subperm hsub).perm_of_length_le (by simp [htotal])
  have hinj := List.inj_on_of_nodup_map (hperm.nodup_iff.1 hnodup)
  have hshelf : ∀ q, r.Registered q → q ∈ r.shelved := fun q hq =>
    mem_shelved.2 ⟨q.category, (honce q hq _).2 rfl⟩
  refine ⟨fun p q hp hq he => hinj (hshelf p hp) (hshelf q hq) he, fun c q => ?_⟩
  constructor
  · intro hq
    obtain ⟨p, hp, he⟩ := (hmem _).1 ((hviews (idText q)).2 ⟨c, q, hq, rfl⟩)
    obtain rfl := hinj (hshelf p hp) (mem_shelved.2 ⟨c, hq⟩) he
    exact ⟨hp, ((honce p hp c).1 hq).symm⟩
  · rintro ⟨hq, rfl⟩
    exact (honce q hq _).2 rfl

theorem Tidy.mem_shelved_iff (ht : r.Tidy) {q : Prompt} : q ∈ r.shelved ↔ r.Registered q := by
  simp only [mem_shelved, ht.mem_iff, exists_and_left, exists_eq', and_true]

theorem Tidy.nodup_shelved (ht : r.Tidy) (hs : Stocked K r) : (r.shelved.map idText).Nodup := by
  have hdistinct : r.shelved.Nodup := by
    rw [shelved, List.nodup_flatMap]
    refine ⟨fun c _ => (hs.nodup c).of_map, ?_⟩
    have hall : Category.all.Nodup := by decide
    refine hall.imp fun hne q hq hq' => hne ?_
    exact ((ht.mem_iff _ q).1 hq).2.symm.trans ((ht.mem_iff _ q).1 hq').2
  exact hdistinct.map_on fun p hp q hq he =>
    ht.single p q (ht.mem_shelved_iff.1 hp) (ht.mem_shelved_iff.1 hq) he

theorem Tidy.agrees (ht : r.Tidy) (hs : Stocked K r) (hK : Family K) : r.Agrees h := by
  obtain ⟨ids, hids, -, hnodup, hmem⟩ := hs.listIds_eq (h := h) hK
  have hviews : ∀ t, t ∈ ids.map Value.asText? ↔ t ∈ r.shelved.map idText := by
    intro t
    rw [hmem, List.mem_map]
    simp only [ht.mem_shelved_iff]
  refine ⟨⟨ids, hids, fun t => ?_⟩, fun q hq c => ?_, ids.length, _, stats_eq hids, ?_⟩
  · rw [hviews, List.mem_map]
    simp only [mem_shelved]
    grind [idText]
  · rw [hs.countP_eq hK (hs.registered q hq)]
    simp only [ht.mem_iff, hq, true_and, eq_comm]
  · have hperm := (List.perm_ext_iff_of_nodup hnodup (ht.nodup_shelved hs)).2 hviews
    rw [sum_counts]
    simpa using hperm.length_eq

/-- The views agree if and only if the registry is tidy. -/
theorem Stocked.agrees_iff (hs : Stocked K r) (hK : Family K) : r.Agrees h ↔ r.Tidy :=
  ⟨hs.tidy hK, fun ht => ht.agrees hs hK⟩

end Registry

end Promptbook
