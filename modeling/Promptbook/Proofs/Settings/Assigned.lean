import Promptbook.Proofs.Outcome
import Promptbook.Proofs.Settings.Written

namespace Promptbook.Settings

open Promptbook.Heap

variable {K : List (List String)} {h₀ h k : Heap} {root w v key : Value} {p q c : List String}
  {name s : String} {names : List String} {r o : Ref} {es fs : Entries Value}

theorem puts_set (hx : h.Extends k) (hc : k.Closed) (hw : k.Holds w)
    (hkey : key.asText? = some name) (hin : ∃ c ∈ K, p ++ [name] <+: c)
    (hd : h.dig p root = some (.ref r)) (hes : h.get? r = some (.dict es))
    (hlast : p ++ [name] ∈ K ∨
      (∀ s ds, h.dig (p ++ [name]) root = some (.ref s) → h.get? s ≠ some (.dict ds)) ∧
        ∃ f, w = .ref f ∧ h.get? f = none ∧ k.get? f = some (.dict [])) :
    Puts K root h (k.set r (.dict (Entries.put k key w es))) p name w r es
      (Entries.put k key w es) where
  within := hin
  place := hd
  before := hes
  after := get?_set_self (hx.keeps hes)
  lookup t := Entries.lookupText_put hkey
  unnamed := Entries.unnamed_put hkey
  others s node hs hn := by
    rw [get?_set_of_ne (Ne.symm hs)]
    exact hx.keeps hn
  closed := by
    refine hc.set fun v hv => ?_
    rcases Entries.mem_elements_put hv with rfl | rfl | hv
    · intro r hr
      rw [hr] at hkey
      cases hkey
    · exact hw
    · exact hc.holds_element (hx.keeps hes) hv
  last := by
    refine hlast.imp_right fun ⟨hno, f, hwf, hf, hkf⟩ => ⟨hno, f, hwf, hf, ?_⟩
    have hne : r ≠ f := by
      intro he
      rw [← he, hes] at hf
      cases hf
    rw [get?_set_of_ne hne, hkf]

theorem assign_eq (hkey : key.asText? = some name) (hes : h.get? r = some (.dict es)) :
    assign h (.ref r) key v = .ok (h.set r (.dict (Entries.put h key v es))) := by
  unfold assign
  rw [node?_ref, hes]
  simp only [checkKey_of_asText hkey]
  rfl

theorem descend_found (hes : h.get? r = some (.dict es)) (hl : lookupText name es = some v)
    (hv : h.dict? v = some fs) : descend h (.ref r) name = .ok (v, h) := by
  have hm := mapping?_of_dict? (dict?_ref hes)
  rw [descend, asMapping, hm]
  simp only [Mapping.field, Mapping.get, hl, Except.map, ok_bind, Option.getD_some, isDict, hv]
  rfl

def filled (h : Heap) (r : Ref) (name : String) (es : Entries Value) : Heap :=
  (h.alloc (.dict [])).2.set r (.dict
    (Entries.put (h.alloc (.dict [])).2 (.text name) (.ref (h.alloc (.dict [])).1) es))

theorem descend_filled (hes : h.get? r = some (.dict es))
    (hv : h.dict? ((lookupText name es).getD .null) = none) :
    descend h (.ref r) name = .ok (.ref (h.alloc (.dict [])).1, filled h r name es) := by
  have hm := mapping?_of_dict? (dict?_ref hes)
  rw [descend, asMapping, hm]
  simp only [Mapping.field, Mapping.get, Except.map, ok_bind, isDict, hv, Option.isSome_none,
    store, assign_eq (Value.asText?_text name) (get?_alloc_of_some hes)]
  rfl

/-- A key with a point in it is taken for a path, and any other is put in place as it is. -/
theorem applyOne_cases (target v : Value) (hkey : key.asText? = some s) :
    (keyPath key = [s] ∧ applyOne h target key v = assign h target key v) ∨
      applyOne h target key v = assignAt h target v (keyPath key) := by
  have hpath : keyPath key = Text.split '.' s := by rw [keyPath, hkey, Option.getD_some]
  have hpoint : hasPoint h key = .ok (s.toList.contains '.') := by
    unfold hasPoint
    rw [hkey]
  rw [applyOne, hpoint, ok_bind, hkey]
  by_cases hdot : s.toList.contains '.'
  · rw [if_pos hdot, hpath]
    exact .inr rfl
  · rw [if_neg hdot, hpath]
    exact .inl ⟨Text.split_of_not_mem (by simpa using hdot), rfl⟩

theorem override_eq (target : Value) (ho : h.get? o = some (.dict es)) :
    override h target (.ref o) = applyFrom o es.length target es.length h := by
  unfold override
  rw [node?_ref, ho]

theorem applyFrom_end (target : Value) (ho : h.get? o = some (.dict es)) :
    applyFrom o es.length target 0 h = .ok h := by
  rw [applyFrom, ho]
  exact if_pos rfl

theorem applyFrom_next {ds : Entries Value} {e : Value × Value} (target : Value)
    (ho : h.get? o = some (.dict es)) (hes : es = ds ++ e :: fs) :
    applyFrom o es.length target (fs.length + 1) h =
      applyOne h target e.1 e.2 >>= applyFrom o es.length target fs.length := by
  have hat : es[es.length - (fs.length + 1)]? = some e := by
    rw [hes]
    simp
  rw [applyFrom, ho]
  simp only [ne_eq, not_true_eq_false, if_false, hat]

/-- A value is put at the end of a path from a dictionary: the dictionaries that are there are
entered, and where there is none a new one is put. -/
inductive Writes (v : Value) : Heap → Ref → List String → Heap → Prop
  | put {h : Heap} {r : Ref} {es : Entries Value} {key : Value} {name : String}
      (hkey : key.asText? = some name) (hes : h.get? r = some (.dict es)) :
      Writes v h r [name] (h.set r (.dict (Entries.put h key v es)))
  | fill {h k : Heap} {r : Ref} {es : Entries Value} {name : String} {names : List String}
      (hes : h.get? r = some (.dict es)) (hne : names ≠ [])
      (hv : h.dict? ((lookupText name es).getD .null) = none)
      (hw : Writes v (filled h r name es) (h.alloc (.dict [])).1 names k) :
      Writes v h r (name :: names) k
  | enter {h k : Heap} {r t : Ref} {es ds : Entries Value} {name : String} {names : List String}
      (hes : h.get? r = some (.dict es)) (hne : names ≠ [])
      (hu : lookupText name es = some (.ref t)) (ht : h.get? t = some (.dict ds))
      (hw : Writes v h t names k) : Writes v h r (name :: names) k

theorem get?_filled_fresh (name : String) (hes : h.get? r = some (.dict es)) :
    (filled h r name es).get? (h.alloc (.dict [])).1 = some (.dict []) := by
  have hne : r ≠ (h.alloc (.dict [])).1 := by
    intro he
    rw [he, get?_alloc_fst] at hes
    cases hes
  rw [filled, get?_set_of_ne hne, get?_alloc]

theorem assign_writes (hkey : key.asText? = some name) (hes : h.get? r = some (.dict es)) :
    ∃ k, assign h (.ref r) key v = .ok k ∧ Writes v h r [name] k :=
  ⟨_, assign_eq hkey hes, .put hkey hes⟩

theorem assignAt_cons (hne : names ≠ []) : assignAt h (.ref r) v (name :: names) =
    descend h (.ref r) name >>= fun x => assignAt x.2 x.1 v names := by
  cases names with
  | nil => exact absurd rfl hne
  | cons next names => rfl

theorem assignAt_writes (hne : names ≠ []) (hes : h.get? r = some (.dict es)) :
    ∃ k, assignAt h (.ref r) v names = .ok k ∧ Writes v h r names k := by
  induction names generalizing h r es with
  | nil => exact absurd rfl hne
  | cons name names ih =>
    by_cases hlast : names = []
    · subst hlast
      exact assign_writes (Value.asText?_text name) hes
    · rw [assignAt_cons hlast]
      cases hv : h.dict? ((lookupText name es).getD .null) with
      | none =>
        obtain ⟨k, hrun, hk⟩ := ih hlast (get?_filled_fresh name hes)
        refine ⟨k, ?_, .fill hes hlast hv hk⟩
        rw [descend_filled hes hv]
        exact hrun
      | some ds =>
        cases hu : lookupText name es with
        | none =>
          rw [hu] at hv
          cases hv
        | some u =>
          rw [hu, Option.getD_some] at hv
          obtain ⟨t, rfl, ht⟩ := exists_of_dict? hv
          obtain ⟨k, hrun, hk⟩ := ih hlast ht
          refine ⟨k, ?_, .enter hes hlast hu ht hk⟩
          rw [descend_found hes hu hv]
          exact hrun

theorem applyOne_writes (hkey : key.asText? = some s) (hes : h.get? r = some (.dict es)) :
    ∃ k, applyOne h (.ref r) key v = .ok k ∧ Writes v h r (keyPath key) k := by
  rcases applyOne_cases (.ref r) v hkey with ⟨hpath, hrun⟩ | hrun
  · rw [hrun, hpath]
    exact assign_writes hkey hes
  · rw [hrun]
    exact assignAt_writes (keyPath_ne_nil key) hes

def Settles (K : List (List String)) (root : Value) (h₀ h : Heap) (c : List String) (v : Value)
    (run : Except Fault Heap) : Prop :=
  ∃ k, run = .ok k ∧ Stage K root h₀ k ∧ k.dig c root = some v ∧
    ∀ d ∈ K, d ≠ c → k.dig d root = h.dig d root

namespace Stage

variable (hs : Stage K root h₀ h) (hK : Apart K) (hroot : h₀.Holds root)
include hs hK hroot

theorem fill (hc : p ++ name :: names ∈ K) (hne : names ≠ [])
    (hd : h.dig p root = some (.ref r)) (hes : h.get? r = some (.dict es))
    (hv : h.dict? ((lookupText name es).getD .null) = none) :
    Stage K root h₀ (filled h r name es) ∧
      (filled h r name es).dig (p ++ [name]) root = some (.ref (h.alloc (.dict [])).1) ∧
      ∀ d ∈ K, (filled h r name es).dig d root = h.dig d root := by
  have hfresh : (h.alloc (.dict [])).2.get? (h.alloc (.dict [])).1 = some (.dict []) :=
    get?_alloc h _
  have hw : (h.alloc (.dict [])).2.Holds (.ref (h.alloc (.dict [])).1) := by
    intro f hf
    cases hf
    exact ⟨_, hfresh⟩
  have hno : ∀ s ds, h.dig (p ++ [name]) root = some (.ref s) → h.get? s ≠ some (.dict ds) := by
    intro s ds hsd hds
    rw [dig_concat, hd, Option.bind_some, member_ref hes] at hsd
    rw [hsd, Option.getD_some, dict?_ref hds] at hv
    cases hv
  have hc' : p ++ [name] ++ names ∈ K := List.append_cons p name names ▸ hc
  have hway : OnWay K (p ++ [name]) := onWay_of_mem hc' hne
  have hp : Puts K root h (filled h r name es) p name _ r es _ :=
    puts_set (Extends.alloc h _) (hs.closed.alloc (by simp [Node.elements])) hw
      (Value.asText?_text name) ⟨_, hc', List.prefix_append _ _⟩ hd hes
      (.inr ⟨hno, _, rfl, get?_alloc_fst h _, hfresh⟩)
  have hdig := fun q hq => hs.dig_put (q := q) hK hroot hp hq
  refine ⟨hs.put hK hroot hp, ?_, fun d hdK => ?_⟩
  · rw [hdig _ (hK.free hway).tracked, if_pos rfl]
  · rw [hdig d (hK.tracked hdK), if_neg]
    intro he
    exact hK.free hway d hdK (he ▸ List.prefix_refl _)

theorem writes (hw : Writes v h r names k) (hv : h₀.Holds v) (hc : p ++ names ∈ K)
    (hd : h.dig p root = some (.ref r)) : Stage K root h₀ k ∧ k.dig (p ++ names) root = some v ∧
      ∀ d ∈ K, d ≠ p ++ names → k.dig d root = h.dig d root := by
  induction hw generalizing p with
  | @put h r es key name hkey hes =>
    have hp : Puts K root h (h.set r (.dict (Entries.put h key v es))) p name v r es _ :=
      puts_set (Extends.refl h) hs.closed (hs.holds hv) hkey ⟨_, hc, List.prefix_refl _⟩ hd hes
        (.inl hc)
    refine ⟨hs.put hK hroot hp, ?_, fun d hdK hne => ?_⟩
    · rw [hs.dig_put hK hroot hp (hK.tracked hc), if_pos rfl]
    · rw [hs.dig_put hK hroot hp (hK.tracked hdK), if_neg hne]
  | @fill h k r es name names hes hne hnone _ ih =>
    obtain ⟨hst, hdig, hothers⟩ := hs.fill hK hroot hc hne hd hes hnone
    rw [List.append_cons] at hc ⊢
    obtain ⟨hstage, hval, hkeys⟩ := ih hst hc hdig
    exact ⟨hstage, hval, fun d hdK hne => by rw [hkeys d hdK hne, hothers d hdK]⟩
  | @enter h k r t es ds name names hes _ hu _ _ ih =>
    rw [List.append_cons] at hc ⊢
    exact ih hs hc (by rw [dig_concat, hd, Option.bind_some, member_ref hes, hu])

end Stage

theorem applyOne_settles (hs : Stage K (.ref r) h₀ h) (hK : Apart K) (hroot : h₀.Holds (.ref r))
    (hv : h₀.Holds v) (hkey : key.asText? = some s) (hc : keyPath key ∈ K)
    (hes : h.get? r = some (.dict es)) :
    Settles K (.ref r) h₀ h (keyPath key) v (applyOne h (.ref r) key v) := by
  obtain ⟨k, hrun, hw⟩ := applyOne_writes (v := v) hkey hes
  exact ⟨k, hrun, hs.writes hK hroot (p := []) hw hv hc rfl⟩

end Promptbook.Settings
