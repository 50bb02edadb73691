import Promptbook.Proofs.Registry.Holdings
import Promptbook.Proofs.Registry.Runs

namespace Promptbook

open Registry
open Entries (Under)

namespace Call

def Textual : Call → Prop
  | register name p => name.asText?.isSome ∧ (idText p).isSome
  | unregister name => name.asText?.isSome
  | clear => True

end Call

theorem Heap.truth_of_asText {h : Heap} {v : Value} {s : String} (hv : v.asText? = some s) :
    h.truth v = .ok (decide (s ≠ "")) := by
  cases v with
  | text t =>
    obtain rfl := Option.some.inj hv
    by_cases ht : t = "" <;> simp [Heap.truth, Heap.truthy, ht]
  | kind k =>
    obtain rfl := Option.some.inj hv
    cases k <;> rfl
  | category c =>
    obtain rfl := Option.some.inj hv
    cases c <;> rfl
  | _ => cases hv

namespace Registry

variable {h : Heap} {r : Registry} {m : Holdings} {K : Prompt → Prop} {p q : Prompt} {name : Value}
  {n id : String} {t : Option String}

structure Keeps (K : Prompt → Prop) (r : Registry) (m : Holdings) : Prop where
  stocked : Stocked K r
  tidy : r.Tidy
  sound : m.Sound
  under : ∀ t q, Under r.entries t q ↔ ∃ n, t = some n ∧ m.find? n = some q
  outside : ∀ n id, m.aliases n = some id → ∀ q, K q → idText q ≠ some n

def Distinct (K : Prompt → Prop) (name : Option String) (p : Prompt) : Prop :=
  name = idText p ∨ ∀ q, K q → idText q ≠ name

theorem keeps_empty : Keeps K {} .empty where
  stocked := stocked_empty
  tidy := tidy_empty
  sound := Holdings.sound_empty
  under t q := by
    constructor
    · intro hu
      exact (Entries.under_nil hu).elim
    · intro hq
      obtain ⟨n, -, hq⟩ := hq
      cases hq
  outside _ _ ha := by cases ha

namespace Keeps

theorem registered_iff (hk : Keeps K r m) : r.Registered q ↔ ∃ id, m.prompts id = some q := by
  rw [Registry.registered_iff]
  constructor
  · intro hq
    obtain ⟨t, hu⟩ := hq
    obtain ⟨n, -, hn⟩ := (hk.under t q).1 hu
    exact (hk.sound.find?_eq_some_iff.1 hn).2
  · intro hq
    obtain ⟨id, hq⟩ := hq
    have hfind := Holdings.find?_id (Option.isSome_of_eq_some hq)
    exact ⟨some id, (hk.under _ q).2 ⟨id, rfl, hfind.trans hq⟩⟩

theorem known (hk : Keeps K r m) (hq : m.prompts id = some q) : K q :=
  hk.stocked.registered q (hk.registered_iff.2 ⟨id, hq⟩)

theorem find?_of_id (hk : Keeps K r m) (hp : K p) (hi : idText p = some id) :
    m.find? id = m.prompts id := by
  cases hs : m.prompts id with
  | some q => exact (Holdings.find?_id (Option.isSome_of_eq_some hs)).trans hs
  | none =>
    apply hk.sound.find?_eq_none_iff.2
    cases ha : m.aliases id with
    | none => simp [Holdings.idOf, hs, ha]
    | some i => exact (hk.outside id i ha p hp hi).elim

theorem replaced_iff (hk : Keeps K r m) (hp : K p) (hi : idText p = some id) :
    r.Replaced p q ↔ m.prompts id = some q ∧ q ≠ p := by
  rw [Replaced, hi, hk.under]
  simp only [Option.some.injEq, exists_eq_left', hk.find?_of_id hp hi]

theorem admits (hk : Keeps K r m) (hp : K p) (hi : idText p = some id)
    (hd : Distinct K (some n) p) : m.Admits n id := by
  constructor
  · cases ha : m.aliases id with
    | none => rfl
    | some i => exact (hk.outside id i ha p hp hi).elim
  · obtain he | hne := hd
    · exact .inl (Option.some.inj (he.trans hi))
    · right
      cases hs : m.prompts n with
      | none => rfl
      | some q => exact (hne q (hk.known hs) (hk.sound.own n q hs)).elim

theorem fits (hk : Keeps K r m) (hp : K p) (hi : idText p = some id)
    (hd : Distinct K name.asText? p) : r.Fits name p where
  keeper q hu := by
    rw [hi, hk.under] at hu
    obtain ⟨i, he, hq⟩ := hu
    cases he
    rw [hk.find?_of_id hp hi] at hq
    exact (hk.sound.own id q hq).trans hi.symm
  others q hq hne := by
    obtain ⟨i, hs⟩ := hk.registered_iff.1 hq
    have hown := hk.sound.own i q hs
    have hfind := Holdings.find?_id (Option.isSome_of_eq_some hs)
    refine ⟨some i, (hk.under _ q).2 ⟨i, rfl, hfind.trans hs⟩, fun hin => ?_⟩
    obtain he | hno := hd
    · exact hne (hown.trans (hin.trans he))
    · exact hno q (hk.known hs) (hown.trans hin)
  same q hq _ he := by
    obtain ⟨i, hs⟩ := hk.registered_iff.1 hq
    have hfind := Holdings.find?_id (Option.isSome_of_eq_some hs)
    left
    rw [← he, hk.sound.own i q hs]
    exact (hk.under _ q).2 ⟨i, rfl, hfind.trans hs⟩

theorem register (hk : Keeps K r m) (hK : Family K) (hw : name.Worded) (hp : K p)
    (hn : name.asText? = some n) (hi : idText p = some id) (hd : Distinct K (some n) p) :
    Keeps K (r.register h name (some p)).1 (m.register n id p) where
  stocked := hk.stocked.register hK hw hp
  tidy := hk.tidy.register (hk.fits hp hi (hn ▸ hd)) hK hk.stocked hw hp
  sound := hk.sound.register (hk.admits hp hi hd) hi
  under t q := by
    rw [under_register hK hk.stocked hw hp, hn, hi]
    simp only [hk.replaced_iff hp hi, hk.under]
    cases t with
    | none => simp
    | some k =>
      simp only [Option.some.injEq, exists_eq_left', Holdings.find?_register (hk.admits hp hi hd)]
      by_cases hkn : k = n ∨ k = id
      · have hk' : k = n ∨ k = id ∨ m.idOf k = some id := by tauto
        simp only [hk', if_true]
        grind
      · have hgone : ∀ d, m.idOf k ≠ some id → m.find? k = some d → m.prompts id ≠ some d := by
          intro d hne hfind hd
          exact hne ((hk.sound.find?_eq_some_iff.1 hfind).1.trans (hk.sound.own id d hd))
        by_cases hki : m.idOf k = some id
        · obtain ⟨old, hold⟩ := Option.isSome_iff_exists.1 (hk.sound.isSome_of_idOf hki)
          have hfind : m.find? k = some old := by rw [Holdings.find?, hki, Option.bind_some, hold]
          simp only [hki, hfind, hold, or_true, if_true, Option.some.injEq]
          grind
        · simp only [hki, or_false, if_neg hkn]
          grind
  outside k i ha q hq := by
    by_cases hne : n = id
    · exact hk.outside k i (by simpa [Holdings.register, hne] using ha) q hq
    · by_cases hkn : k = n
      · obtain he | hno := hd
        · exact (hne (Option.some.inj (he.trans hi))).elim
        · exact hkn ▸ hno q hq
      · exact hk.outside k i (by simpa [Holdings.register, hne, hkn] using ha) q hq

theorem remove (hk : Keeps K r m) (hK : Family K) (hp : m.prompts id = some p) :
    Keeps K (r.remove h p) (m.remove id) where
  stocked := hk.stocked.remove hK (hk.known hp)
  tidy := hk.tidy.remove hK hk.stocked (hk.registered_iff.2 ⟨id, hp⟩)
  sound := hk.sound.remove
  under t q := by
    rw [under_remove hK hk.stocked (hk.known hp), hk.under]
    simp only [hk.sound.find?_remove (Option.isSome_of_eq_some hp)]
    constructor
    · intro hq
      obtain ⟨⟨n, ht, hq⟩, hne⟩ := hq
      obtain ⟨hi, hq'⟩ := hk.sound.find?_eq_some_iff.1 hq
      refine ⟨n, ht, ?_⟩
      rw [if_neg fun he => hne (hk.sound.unique hp hq' (hi.symm.trans he))]
      exact hq
    · intro hq
      obtain ⟨n, ht, hq⟩ := hq
      obtain ⟨hne, hq⟩ := Option.ite_none_left_eq_some.1 hq
      refine ⟨⟨n, ht, hq⟩, fun he => hne ?_⟩
      rw [(hk.sound.find?_eq_some_iff.1 hq).1, he, hk.sound.own id p hp]
  outside n i ha q hq := hk.outside n i (Option.ite_none_left_eq_some.1 ha).2 q hq

theorem find?_eq (hk : Keeps K r m) (hn : name.asText? = some n) : r.find? h name = m.find? n := by
  apply Option.ext
  intro q
  rw [Registry.find?, hk.stocked.keyed.find?_eq_some_iff hn, hk.under]
  simp

theorem get_eq (hk : Keeps K r m) (hn : name.asText? = some n) :
    r.get h name = .ok (m.find? n) := by
  rw [get, Heap.checkKey_of_asText hn, hk.find?_eq hn]
  rfl

theorem unregister_eq (hk : Keeps K r m) (hn : name.asText? = some n) :
    r.unregister h name =
      .ok (match m.find? n with
        | some p => (r.remove h p, true)
        | none => (r, false)) := by
  rw [unregister, hk.get_eq hn]
  cases m.find? n <;> rfl

end Keeps

theorem step_register (hn : name.asText? = some n) (hi : idText p = some id) :
    (name.Worded ∧ p.id.Worded) ∧
        m.step (.register name p) = m.register n id p ∨
      (r.register h name (some p)).1 = r ∧ m.step (.register name p) = m := by
  have hstep : m.step (.register name p) =
      if n = "" ∨ id = "" then m else m.register n id p := by
    simp only [Holdings.step, hn, hi]
  by_cases hne : n = ""
  · right
    simp [hstep, register, Heap.truth_of_asText hn, hne]
  · by_cases hie : id = ""
    · right
      simp [hstep, register, Heap.truth_of_asText hn, Heap.truth_of_asText hi, hne, hie]
    · left
      rw [hstep, if_neg (not_or.2 ⟨hne, hie⟩)]
      exact ⟨⟨⟨n, hn, hne⟩, id, hi, hie⟩, rfl⟩

/-- A call does to a registry what it does to the holdings that it keeps. -/
theorem Keeps.step (hk : Keeps K r m) (hK : Family K) {c : Call} (hc : c.Textual)
    (hp : ∀ name p, c = .register name p → p.id.Worded → K p ∧ Distinct K name.asText? p) :
    Keeps K (c.step h r) (m.step c) := by
  cases c with
  | register name p =>
    obtain ⟨n, hn⟩ := Option.isSome_iff_exists.1 hc.1
    obtain ⟨id, hi⟩ := Option.isSome_iff_exists.1 hc.2
    rcases step_register (h := h) (r := r) (m := m) hn hi with ⟨⟨hw, hw'⟩, hm⟩ | ⟨hr, hm⟩
    · obtain ⟨hKp, hd⟩ := hp name p rfl hw'
      rw [hm]
      exact hk.register hK hw hKp hn hi (hn ▸ hd)
    · rw [hm, Call.step, hr]
      exact hk
  | unregister name =>
    obtain ⟨n, hn⟩ := Option.isSome_iff_exists.1 hc
    rw [Call.step, hk.unregister_eq hn, Holdings.step, hn, Option.bind_some]
    cases hf : m.find? n with
    | none =>
      rw [hk.sound.find?_eq_none_iff.1 hf]
      exact hk
    | some p =>
      obtain ⟨hi, id, hp⟩ := hk.sound.find?_eq_some_iff.1 hf
      rw [hi, hk.sound.own id p hp]
      exact hk.remove hK hp
  | clear => exact keeps_empty

structure Shows (h : Heap) (r : Registry) (m : Holdings) : Prop where
  get : ∀ (name : Value) n, name.asText? = some n → r.get h name = .ok (m.find? n)
  unregister : ∀ (name : Value) n, name.asText? = some n →
    ∃ kept, r.unregister h name = .ok (kept, (m.idOf n).isSome)
  ids : ∃ ids, ∃ texts : List String, r.listIds h = .ok ids ∧ ids.map Value.asText? = texts.map some ∧
    texts.Pairwise (· < ·) ∧ ∀ id, id ∈ texts ↔ ∃ q, m.prompts id = some q
  shelf : ∀ (v : Value) c, v.toCategory? = some c → ∃ shelf, r.byCategory h v = .ok shelf ∧
    (shelf.map idText).Nodup ∧ ∀ q, q ∈ shelf ↔ (∃ id, m.prompts id = some q) ∧ q.category = c

theorem Keeps.listIds_eq (hk : Keeps K r m) (hK : Family K) :
    ∃ ids, ∃ texts : List String, r.listIds h = .ok ids ∧ ids.map Value.asText? = texts.map some ∧
      texts.Pairwise (· < ·) ∧ ∀ id, id ∈ texts ↔ ∃ q, m.prompts id = some q := by
  obtain ⟨ids, hids, hsorted, hnodup, hmem⟩ := hk.stocked.listIds_eq (h := h) hK
  have htext : ∀ v ∈ ids, v.asText? = some (v.asText?.getD "") := by
    intro v hv
    obtain ⟨q, hq, hi⟩ := (hmem _).1 (List.mem_map_of_mem hv)
    obtain ⟨id, hs⟩ := hk.registered_iff.1 hq
    rw [← hi, hk.sound.own id q hs]
    rfl
  have hmap : ids.map Value.asText? = (ids.map fun v => v.asText?.getD "").map some := by
    rw [List.map_map]
    exact List.map_congr_left htext
  have hdistinct : (ids.map fun v => v.asText?.getD "").Nodup := by
    rw [hmap] at hnodup
    exact hnodup.of_map
  refine ⟨ids, _, hids, hmap, ?_, fun id => ?_⟩
  · have hle : (ids.map fun v => v.asText?.getD "").Pairwise (· ≤ ·) := List.pairwise_map.2 hsorted
    apply (hle.and hdistinct).imp
    intro a b hab
    by_contra hlt
    exact hab.2 (String.le_antisymm hab.1 (String.not_lt.1 hlt))
  · have hin := hmem (some id)
    rw [hmap, List.mem_map_of_injective fun _ _ => Option.some.inj] at hin
    rw [hin]
    constructor
    · intro hq
      obtain ⟨q, hq, hi⟩ := hq
      obtain ⟨i, hs⟩ := hk.registered_iff.1 hq
      have he := (hk.sound.own i q hs).symm.trans hi
      exact ⟨q, Option.some.inj he ▸ hs⟩
    · intro hq
      obtain ⟨q, hs⟩ := hq
      exact ⟨q, hk.registered_iff.2 ⟨id, hs⟩, hk.sound.own id q hs⟩

theorem Keeps.shows (hk : Keeps K r m) (hK : Family K) : r.Shows h m where
  get _ _ hn := hk.get_eq hn
  unregister name n hn := by
    rw [hk.unregister_eq hn]
    cases hf : m.find? n with
    | none => exact ⟨r, by rw [hk.sound.find?_eq_none_iff.1 hf]; rfl⟩
    | some p =>
      obtain ⟨hi, id, hp⟩ := hk.sound.find?_eq_some_iff.1 hf
      exact ⟨r.remove h p, by rw [hi, hk.sound.own id p hp]; rfl⟩
  ids := hk.listIds_eq hK
  shelf v c hv := by
    refine ⟨r.shelves c, ?_, hk.stocked.nodup c, fun q => ?_⟩
    · rw [byCategory, Heap.asCategory, hv]
    · rw [hk.tidy.mem_iff, hk.registered_iff]

end Registry

namespace Session

variable {s : Session} {calls done : List Call} {c : Call}

/-- Names and ids are texts, a name of a prompt is its id or the id of no prompt of the run, and the
same prompt has the same fields wherever it is registered. -/
structure Aliased (calls : List Call) : Prop where
  textual : ∀ c ∈ calls, c.Textual
  distinct : ∀ name p, .register name p ∈ calls → Distinct (Offered calls) name.asText? p
  serial : ∀ p q, Offered calls p → Offered calls q → p.serial = q.serial → p = q

def Accepted (calls : List Call) (p : Prompt) : Prop :=
  Offered calls p ∧ p.id.Worded

theorem Aliased.family (ha : Aliased calls) : Family (Accepted calls) where
  worded _ hp := hp.2
  serial p q hp hq := ha.serial p q hp.1 hq.1

theorem Aliased.keeps (ha : Aliased calls) (hr : s.registry = {}) (hd : done <+: calls) :
    Keeps (Accepted calls) (s.after done).registry (Holdings.empty.after done) := by
  induction done using List.reverseRecOn with
  | nil => exact hr ▸ keeps_empty
  | append_singleton done c ih =>
    have hm : c ∈ calls := hd.subset (List.mem_append_right _ (List.mem_singleton.2 rfl))
    rw [after_registry, Holdings.after_snoc]
    apply (ih ((List.prefix_append done [c]).trans hd)).step ha.family (ha.textual c hm)
    intro name p he hw
    refine ⟨⟨⟨name, he ▸ hm⟩, hw⟩, ?_⟩
    obtain heq | hno := ha.distinct name p (he ▸ hm)
    · exact .inl heq
    · exact .inr fun q hq => hno q hq.1

/-- After a run from an empty registry, the registry shows what the run makes of empty holdings. -/
theorem registry_shows (ha : Aliased calls) (hr : s.registry = {}) :
    (s.after calls).registry.Shows s.heap (Holdings.empty.after calls) :=
  (ha.keeps hr (List.prefix_refl calls)).shows ha.family

/-- A name passes to another id while the first prompt has moved to another category under its own,
and then a name that is not the id removes that prompt. -/
def passed : List Call :=
  [.register (.text "x") (bare 0 "a" .general), .register (.text "a") (bare 1 "a" .refactoring),
    .register (.text "x") (bare 2 "b" .general), .register (.text "y") (bare 1 "a" .refactoring),
    .register (.text "z") (bare 3 "" .general), .unregister (.text "y")]

theorem passed_aliased : Aliased passed where
  textual c hc := by
    simp only [passed, List.mem_cons, List.not_mem_nil, or_false] at hc
    rcases hc with rfl | rfl | rfl | rfl | rfl | rfl
    all_goals first | exact ⟨rfl, rfl⟩ | exact rfl
  distinct name p hp := by
    have hoffered : ∀ q, Offered passed q → idText q ≠ some "x" ∧ idText q ≠ some "y" ∧
        idText q ≠ some "z" := by
      intro q hq
      obtain ⟨m, hq⟩ := hq
      simp only [passed, List.mem_cons, List.not_mem_nil, or_false, Call.register.injEq,
        reduceCtorEq] at hq
      rcases hq with ⟨-, rfl⟩ | ⟨-, rfl⟩ | ⟨-, rfl⟩ | ⟨-, rfl⟩ | ⟨-, rfl⟩
      all_goals decide
    simp only [passed, List.mem_cons, List.not_mem_nil, or_false, Call.register.injEq,
      reduceCtorEq] at hp
    rcases hp with ⟨rfl, rfl⟩ | ⟨rfl, rfl⟩ | ⟨rfl, rfl⟩ | ⟨rfl, rfl⟩ | ⟨rfl, rfl⟩
    · exact .inr fun q hq => (hoffered q hq).1
    · exact .inl rfl
    · exact .inr fun q hq => (hoffered q hq).1
    · exact .inr fun q hq => (hoffered q hq).2.1
    · exact .inr fun q hq => (hoffered q hq).2.2
  serial p q hp hq := by
    obtain ⟨n, hp⟩ := hp
    obtain ⟨m, hq⟩ := hq
    simp only [passed, List.mem_cons, List.not_mem_nil, or_false, Call.register.injEq,
      reduceCtorEq] at hp hq
    rcases hp with ⟨-, rfl⟩ | ⟨-, rfl⟩ | ⟨-, rfl⟩ | ⟨-, rfl⟩ | ⟨-, rfl⟩ <;>
      rcases hq with ⟨-, rfl⟩ | ⟨-, rfl⟩ | ⟨-, rfl⟩ | ⟨-, rfl⟩ | ⟨-, rfl⟩
    all_goals first | exact fun _ => rfl | exact (fun he => by cases he)

/-- The first name leads to the second id, and the other name is gone with the first. -/
theorem passed_shows : Aliased passed ∧
    (({} : Session).after passed).registry.Shows .empty (Holdings.empty.after passed) ∧
    (Holdings.empty.after passed).find? "x" = some (bare 2 "b" .general) ∧
    (Holdings.empty.after passed).find? "y" = none := by
  refine ⟨passed_aliased, registry_shows (s := {}) passed_aliased rfl, ?_, ?_⟩
  · rfl
  · rfl

end Session

end Promptbook
