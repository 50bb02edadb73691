import Promptbook.Proofs.Settings.Assigned

namespace Promptbook

namespace Heap

/-- Related values of two heaps are dictionaries with related values under every text and the same
other entries, or they are the same and hold what is related to itself. -/
def AgreeUnder (h k : Heap) (R : Value → Value → Prop) : Prop :=
  ∀ a b, R a b →
    (∃ es fs, h.dict? a = some es ∧ k.dict? b = some fs ∧
      (∀ t, Option.Rel R (lookupText t es) (lookupText t fs)) ∧
      Entries.unnamed es = Entries.unnamed fs ∧
      ∀ e ∈ Entries.unnamed es, R e.1 e.1 ∧ R e.2 e.2) ∨
    a = b ∧ h.dict? a = none ∧ k.node? a = h.node? a ∧
      ∀ node, h.node? a = some node → ∀ v ∈ node.elements, R v v

/-- Values of two heaps are the same as nested mappings, whatever the order of their entries. -/
def SameMapping (h : Heap) (u : Value) (k : Heap) (v : Value) : Prop :=
  ∃ R, AgreeUnder h k R ∧ R u v

end Heap

namespace Settings

open Promptbook.Heap

variable {K : List (List String)} {h k l : Heap} {u v : Value} {p : List String}
  {root o : Ref} {ds es fs : Entries Value} {e : Value × Value}

def keyPaths (es : Entries Value) : List (List String) :=
  es.map fun e => keyPath e.1

/-- A record that is a tree of dictionaries and other values, and overrides that are no part of the
way to a key in it. Their keys are texts, no one of which leads through another. -/
structure Overrides (h : Heap) (root o : Ref) (es : Entries Value) : Prop where
  closed : h.Closed
  record : ∃ ds, h.get? root = some (.dict ds)
  tree : ∀ p q r es, h.get? r = some (.dict es) → h.dig p (.ref root) = some (.ref r) →
    h.dig q (.ref root) = some (.ref r) → p = q
  given : h.get? o = some (.dict es)
  aside : ∀ p, OnWay (keyPaths es) p → h.dig p (.ref root) ≠ some (.ref o)
  texts : ∀ e ∈ es, ∃ s, e.1.asText? = some s
  distinct : (es.map fun e => e.1.asText?).Nodup
  apart : Apart (keyPaths es)

namespace Overrides

variable (ho : Overrides h root o es)
include ho

theorem holds_root : h.Holds (.ref root) := by
  intro r hr
  cases hr
  obtain ⟨ds, hds⟩ := ho.record
  exact ⟨_, hds⟩

theorem applyFrom (hes : es = ds ++ fs) (hs : Stage (keyPaths es) (.ref root) h k)
    (hdone : ∀ d ∈ ds, k.dig (keyPath d.1) (.ref root) = some d.2) :
    ∃ l, applyFrom o es.length (.ref root) fs.length k = .ok l ∧
      Stage (keyPaths es) (.ref root) h l ∧
      ∀ e ∈ es, l.dig (keyPath e.1) (.ref root) = some e.2 := by
  have hgiven : k.get? o = some (.dict es) := hs.get?_of_aside ho.given ho.aside
  induction fs generalizing ds k with
  | nil =>
    rw [List.append_nil] at hes
    exact ⟨k, applyFrom_end _ hgiven, hs, hes ▸ hdone⟩
  | cons e fs ih =>
    have he : e ∈ es := by simp [hes]
    obtain ⟨t, ht⟩ := ho.texts e he
    obtain ⟨cs, hcs⟩ := ho.record
    obtain ⟨cs, hcs⟩ := hs.dict_stays hcs
    obtain ⟨l, hrun, hl, hval, hkeys⟩ := applyOne_settles hs ho.apart ho.holds_root
      (ho.closed.holds_entry ho.given he).2 ht (List.mem_map_of_mem he) hcs
    have hpre : ds ++ [e] <+: es := ⟨fs, by rw [hes, ← List.append_cons]⟩
    have hdone' : ∀ d ∈ ds ++ [e], l.dig (keyPath d.1) (.ref root) = some d.2 := by
      intro d hd
      rcases List.mem_append.1 hd with hd | hd
      · have hne := keyPath_ne_of_nodup ho.texts ho.distinct hpre d hd
        rw [hkeys _ (List.mem_map_of_mem (by simp [hes, hd])) hne, hdone d hd]
      · rw [List.mem_singleton.1 hd, hval]
    obtain ⟨m, hm, hstage, hall⟩ := ih (by rw [hes, List.append_cons]) hl hdone'
      (hl.get?_of_aside ho.given ho.aside)
    refine ⟨m, ?_, hstage, hall⟩
    rw [List.length_cons, applyFrom_next _ hgiven hes, hrun]
    exact hm

theorem override : ∃ k, override h (.ref root) (.ref o) = .ok k ∧
    Stage (keyPaths es) (.ref root) h k ∧
    ∀ e ∈ es, k.dig (keyPath e.1) (.ref root) = some e.2 := by
  rw [override_eq _ ho.given]
  exact ho.applyFrom (List.nil_append es).symm (Stage.refl ho.closed ho.tree)
    (List.forall_mem_nil _)

end Overrides

structure Ends (K : List (List String)) (root : Value) (h k l : Heap) : Prop where
  closed : h.Closed
  apart : Apart K
  left : Stage K root h k
  right : Stage K root h l
  keys : ∀ c ∈ K, ∃ v, k.dig c root = some v ∧ l.dig c root = some v ∧ h.Holds v

namespace Ends

variable {root : Value}

/-- Values at the same place on the way to a key, or the same value of the record at first. -/
def Related (K : List (List String)) (root : Value) (h k l : Heap) (a b : Value) : Prop :=
  a = b ∧ h.Holds a ∨ ∃ p, OnWay K p ∧ k.dig p root = some a ∧ l.dig p root = some b

theorem related_of_holds {a : Value} (ha : h.Holds a) : Related K root h k l a a :=
  .inl ⟨rfl, ha⟩

theorem dict_onWay (hkeys : ∀ c ∈ K, ∃ v, k.dig c root = some v) (hp : OnWay K p) :
    ∃ r es, k.dig p root = some (.ref r) ∧ k.get? r = some (.dict es) := by
  obtain ⟨name, names, hc⟩ := hp.exists_rest
  obtain ⟨v, hv⟩ := hkeys _ hc
  rw [List.append_cons, dig_append, Option.bind_eq_some_iff] at hv
  obtain ⟨u, hu, -⟩ := hv
  obtain ⟨r, es, hr, hes, -⟩ := dict?_of_dig_concat hu
  exact ⟨r, es, hr, hes⟩

variable (he : Ends K root h k l)
include he

theorem unnamed_eq (hp : OnWay K p) {r s : Ref}
    (hr : k.dig p root = some (.ref r)) (hes : k.get? r = some (.dict es))
    (hs : l.dig p root = some (.ref s)) (hfs : l.get? s = some (.dict fs)) :
    Entries.unnamed es = Entries.unnamed fs ∧
      ∀ e ∈ Entries.unnamed es, h.Holds e.1 ∧ h.Holds e.2 := by
  have hfree := he.apart.free hp
  rcases he.left.origin p hfree r es hr hes with ⟨cs, hd, hcs, hu⟩ | ⟨hnone, hu⟩ <;>
    rcases he.right.origin p hfree s fs hs hfs with ⟨cs', hd', hcs', hu'⟩ | ⟨hnone', hu'⟩
  · rw [hd] at hd'
    cases hd'
    rw [hcs] at hcs'
    cases hcs'
    refine ⟨hu.trans hu'.symm, fun e hmem => he.closed.holds_entry hcs ?_⟩
    rw [hu] at hmem
    exact List.mem_of_mem_filter hmem
  · have hkept := he.right.kept p hfree r cs hd hcs
    rw [hs] at hkept
    cases hkept
    rw [hnone'] at hcs
    cases hcs
  · have hkept := he.left.kept p hfree s cs' hd' hcs'
    rw [hr] at hkept
    cases hkept
    rw [hnone] at hcs'
    cases hcs'
  · rw [hu, hu']
    exact ⟨rfl, List.forall_mem_nil _⟩

theorem dicts_onWay (hroot : h.Holds root) (hp : OnWay K p) {a b : Value}
    (ha : k.dig p root = some a) (hb : l.dig p root = some b) :
    ∃ es fs, k.dict? a = some es ∧ l.dict? b = some fs ∧
      (∀ t, Option.Rel (Related K root h k l) (lookupText t es) (lookupText t fs)) ∧
      Entries.unnamed es = Entries.unnamed fs ∧
      ∀ e ∈ Entries.unnamed es, Related K root h k l e.1 e.1 ∧ Related K root h k l e.2 e.2 := by
  have hkleft : ∀ c ∈ K, ∃ v, k.dig c root = some v :=
    fun c hc => (he.keys c hc).imp fun _ hv => hv.1
  have hkright : ∀ c ∈ K, ∃ v, l.dig c root = some v :=
    fun c hc => (he.keys c hc).imp fun _ hv => hv.2.1
  obtain ⟨r, es, hr, hes⟩ := dict_onWay hkleft hp
  obtain ⟨s, fs, hs, hfs⟩ := dict_onWay hkright hp
  obtain rfl := Option.some.inj (ha.symm.trans hr)
  obtain rfl := Option.some.inj (hb.symm.trans hs)
  obtain ⟨hun, hheld⟩ := he.unnamed_eq hp hr hes hs hfs
  refine ⟨es, fs, dict?_ref hes, dict?_ref hfs, fun t => ?_, hun,
    fun e hmem => (hheld e hmem).imp related_of_holds related_of_holds⟩
  have hk : k.dig (p ++ [t]) root = lookupText t es := by
    rw [dig_concat, ha, Option.bind_some, member_ref hes]
  have hl : l.dig (p ++ [t]) root = lookupText t fs := by
    rw [dig_concat, hb, Option.bind_some, member_ref hfs]
  rw [← hk, ← hl]
  rcases hp.concat_cases he.apart t with hc | hon | hun
  · obtain ⟨v, hkv, hlv, hv⟩ := he.keys _ hc
    rw [hkv, hlv]
    exact .some (related_of_holds hv)
  · obtain ⟨r', -, hr', -⟩ := dict_onWay hkleft hon
    obtain ⟨s', -, hs', -⟩ := dict_onWay hkright hon
    rw [hr', hs']
    exact .some (.inr ⟨_, hon, hr', hs'⟩)
  · rw [he.left.unrelated _ hun, he.right.unrelated _ hun]
    cases hw : h.dig (p ++ [t]) root with
    | none => exact .none
    | some w => exact .some (related_of_holds (he.closed.holds_dig hroot hw))

theorem node_cases {r : Ref} {node : Node} (hn : h.get? r = some node) :
    (k.get? r = some node ∧ l.get? r = some node) ∨
      ∃ p, OnWay K p ∧ k.dig p root = some (.ref r) ∧ l.dig p root = some (.ref r) := by
  have hway : ∀ p ds, OnWay K p → h.dig p root = some (.ref r) → node = .dict ds →
      ∃ p, OnWay K p ∧ k.dig p root = some (.ref r) ∧ l.dig p root = some (.ref r) := by
    rintro p ds hp hd rfl
    have hfree := he.apart.free hp
    exact ⟨p, hp, he.left.kept p hfree r ds hd hn, he.right.kept p hfree r ds hd hn⟩
  rcases he.left.others r node hn with hk | ⟨p, ds, -, hp, hd, hds, -⟩
  · rcases he.right.others r node hn with hl | ⟨p, ds, -, hp, hd, hds, -⟩
    · exact .inl ⟨hk, hl⟩
    · exact .inr (hway p ds hp hd hds)
  · exact .inr (hway p ds hp hd hds)

theorem agreeUnder (hroot : h.Holds root) : AgreeUnder k l (Related K root h k l) := by
  rintro a b (⟨rfl, ha⟩ | ⟨p, hp, hka, hlb⟩)
  · cases a with
    | ref r =>
      obtain ⟨node, hn⟩ := ha r rfl
      rcases he.node_cases hn with ⟨hk, hl⟩ | ⟨p, hp, hkr, hlr⟩
      · have hheld : ∀ v ∈ node.elements, Related K root h k l v v :=
          fun v hv => related_of_holds (he.closed.holds_element hn hv)
        cases node with
        | dict es =>
          refine .inl ⟨es, es, dict?_ref hk, dict?_ref hl, fun t => ?_, rfl, fun e hmem => ?_⟩
          · cases hw : lookupText t es with
            | none => exact .none
            | some w =>
              rw [lookupText, Option.map_eq_some_iff] at hw
              obtain ⟨e, hmem, rfl⟩ := hw
              exact .some (hheld _ (Node.mem_elements_entry (List.mem_of_find?_eq_some hmem)).2)
          · have hmem' := Node.mem_elements_entry (List.mem_of_mem_filter hmem)
            exact ⟨hheld _ hmem'.1, hheld _ hmem'.2⟩
        | _ =>
          refine .inr ⟨rfl, ?_, ?_, fun node' hn' => ?_⟩
          · rw [dict?, node?_ref, hk]
          · rw [node?_ref, node?_ref, hk, hl]
          · rw [node?_ref, hk] at hn'
            cases hn'
            exact hheld
      · exact .inl (he.dicts_onWay hroot hp hkr hlr)
    | _ => exact .inr ⟨rfl, rfl, rfl, fun _ hn => by cases hn⟩
  · exact .inl (he.dicts_onWay hroot hp hka hlb)

end Ends

/-- A record with a level below, and two orders of the same overrides. -/
def levels : Heap where
  nodes := #[.dict [(.text "a", .ref ⟨1⟩), (.text "b", .int 2), (.int 7, .null)],
    .dict [(.text "x", .int 1)],
    .dict [(.text "a.y", .int 3), (.text "b.c", .ref ⟨1⟩), (.text "d", .int 5)],
    .dict [(.text "d", .int 5), (.text "b.c", .ref ⟨1⟩), (.text "a.y", .int 3)]]

theorem levels_dig {r : Ref} (hd : levels.dig p (.ref ⟨0⟩) = some (.ref r)) :
    p = [] ∧ r = ⟨0⟩ ∨ p = ["a"] ∧ r = ⟨1⟩ := by
  have hroot : levels.get? ⟨0⟩ =
      some (.dict [(.text "a", .ref ⟨1⟩), (.text "b", .int 2), (.int 7, .null)]) := rfl
  have hinner : levels.get? ⟨1⟩ = some (.dict [(.text "x", .int 1)]) := rfl
  have hint : ∀ (n : Int) q, levels.dig q (.int n) ≠ some (.ref r) := by
    intro n q hq
    cases (eq_of_dig rfl hq).2
  cases p with
  | nil =>
    cases hd
    exact .inl ⟨rfl, rfl⟩
  | cons name p =>
    rw [dig, member_ref hroot, Option.bind_eq_some_iff] at hd
    obtain ⟨u, hu, hd⟩ := hd
    by_cases ha : name = "a"
    · subst ha
      cases hu
      cases p with
      | nil =>
        cases hd
        exact .inr ⟨rfl, rfl⟩
      | cons next p =>
        rw [dig, member_ref hinner, Option.bind_eq_some_iff] at hd
        obtain ⟨u, hu, hd⟩ := hd
        by_cases hx : next = "x"
        · subst hx
          cases hu
          exact absurd hd (hint 1 p)
        · simp [lookupText, Ne.symm hx] at hu
    · by_cases hb : name = "b"
      · subst hb
        cases hu
        exact absurd hd (hint 2 p)
      · simp [lookupText, Ne.symm ha, Ne.symm hb, Value.asText?] at hu

theorem levels_overrides {o : Ref} {es : Entries Value} (ho : levels.get? o = some (.dict es))
    (hr : o ≠ ⟨0⟩ ∧ o ≠ ⟨1⟩) (htexts : ∀ e ∈ es, ∃ s, e.1.asText? = some s)
    (hdistinct : (es.map fun e => e.1.asText?).Nodup) (hapart : Apart (keyPaths es)) :
    Overrides levels ⟨0⟩ o es where
  closed := by decide
  record := ⟨_, rfl⟩
  tree p q r _ _ hp hq := by
    rcases levels_dig hp with ⟨rfl, rfl⟩ | ⟨rfl, rfl⟩ <;>
      rcases levels_dig hq with ⟨rfl, he⟩ | ⟨rfl, he⟩ <;> first | rfl | cases he
  given := ho
  aside p _ hp := by
    rcases levels_dig hp with ⟨-, he⟩ | ⟨-, he⟩
    · exact hr.1 he
    · exact hr.2 he
  texts := htexts
  distinct := hdistinct
  apart := hapart

end Settings

end Promptbook
