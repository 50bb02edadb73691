import Promptbook.Proofs.Settings.Landing

namespace Promptbook

namespace Heap

variable {h : Heap} {u v w : Value} {r s : Ref} {node : Node} {p : List String}
  {es : Entries Value} {S : List Ref}

theorem Reaches.element (hr : h.Reaches v r) (hn : h.get? r = some node)
    (hw : w ∈ node.elements) (hs : w = .ref s) : h.Reaches v s := by
  obtain ⟨st, hst⟩ := Node.mem_elements.1 hw
  exact hr.tail hn (hs ▸ hst)

theorem reaches_of_dig (hw : h.dig p v = some (.ref s)) : h.Reaches v s := by
  induction p using List.reverseRecOn generalizing s with
  | nil =>
    cases hw
    exact .refl h s
  | append_singleton p name ih =>
    obtain ⟨r, es, hr, hes, hl⟩ := dict?_of_dig_concat hw
    rw [lookupText, Option.map_eq_some_iff] at hl
    obtain ⟨e, he, hes'⟩ := hl
    exact (ih hr).element hes (Node.mem_elements_entry (List.mem_of_find?_eq_some he)).2 hes'

theorem isSome_dict?_of_dig (hw : h.dig p v = some (.ref s)) (hs : h.get? s = some (.dict es)) :
    (h.dict? v).isSome := by
  cases hv : h.dict? v with
  | some ds => rfl
  | none =>
    obtain ⟨-, rfl⟩ := eq_of_dig hv hw
    rw [dict?_ref hs] at hv
    cases hv

theorem Reaches.mem (hr : h.Reaches (.ref s) r) (hs : s ∈ S)
    (hS : ∀ q ∈ S, ∀ node ∈ h.get? q, ∀ v ∈ node.elements, ∀ t ∈ v.asRef?, t ∈ S) : r ∈ S := by
  refine hr.induction (P := fun u => (∀ q, u = .ref q → q ∈ S) → r ∈ S) (fun hu => hu r rfl) ?_
    (by rintro _ ⟨⟩; exact hs)
  intro q node st u hq hu _ ih hmem
  exact ih fun t ht => hS q (hmem q rfl) node hq u (Node.mem_elements.2 ⟨st, hu⟩) t
    (Value.asRef?_eq_some.2 ht)

end Heap

namespace Settings

open Promptbook.Heap

variable {h₀ h k l : Heap} {root o : Ref} {v w u : Value} {p q names : List String}
  {name : String} {r t : Ref} {es fs ds done : Entries Value} {d e : Value × Value}

/-- The overrides whose values still stand at the ends of their keys. An override takes the place of
those whose keys lead to its key or beyond. -/
def standing (done : Entries Value) : Entries Value :=
  done.foldl (fun ds e => (ds.filter fun d => ¬ keyPath e.1 <+: keyPath d.1) ++ [e]) []

/-- Where the key of an override leads into a dictionary that stands from the overrides before it,
its value is there already. -/
def Clear (h : Heap) (done : Entries Value) (e : Value × Value) : Prop :=
  ∀ d ∈ standing done, (h.dict? d.2).isSome → keyPath d.1 <+: keyPath e.1 →
    h.dig ((keyPath e.1).drop (keyPath d.1).length) d.2 = some e.2

/-- No key of overrides leads into a value of an earlier one to anything but what is there. -/
def Bypasses (h : Heap) (es : Entries Value) : Prop :=
  ∀ i < es.length, ∀ e ∈ es[i]?, Clear h (es.take i) e

instance (h : Heap) (done : Entries Value) (e : Value × Value) : Decidable (Clear h done e) :=
  inferInstanceAs (Decidable (∀ d ∈ standing done, _))

instance (h : Heap) (es : Entries Value) : Decidable (Bypasses h es) :=
  inferInstanceAs (Decidable (∀ i < es.length, _))

theorem mem_standing_snoc :
    d ∈ standing (done ++ [e]) ↔ (d ∈ standing done ∧ ¬ keyPath e.1 <+: keyPath d.1) ∨ d = e := by
  simp only [standing, List.foldl_append, List.foldl_cons, List.foldl_nil, List.mem_append,
    List.mem_filter, List.mem_singleton, decide_eq_true_eq]

theorem mem_of_mem_standing (hd : d ∈ standing done) : d ∈ done := by
  induction done using List.reverseRecOn with
  | nil => cases hd
  | append_singleton done e ih =>
    rcases mem_standing_snoc.1 hd with ⟨hd, -⟩ | rfl
    · exact List.mem_append_left _ (ih hd)
    · exact List.mem_concat_self

theorem bypasses_iff :
    Bypasses h es ↔ ∀ ds e, ds ++ [e] <+: es → Clear h ds e := by
  constructor
  · rintro hb ds e ⟨rest, rfl⟩
    have hclear := hb ds.length (by simp) e (by simp)
    rwa [List.append_assoc, List.take_left] at hclear
  · intro hb i hi e he
    have hget := List.getElem?_eq_some_iff.1 he
    refine hb (es.take i) e ?_
    obtain ⟨hlt, rfl⟩ := hget
    rw [List.take_append_getElem]
    exact List.take_prefix _ _

namespace Spares

variable (hs : Spares h₀ o h)
include hs

theorem node?_eq (hv : ∀ r, v = .ref r → h₀.Reaches (.ref o) r) : h.node? v = h₀.node? v := by
  cases v with
  | ref r => exact hs r (hv r rfl)
  | _ => rfl

theorem dig_eq (hv : ∀ r, v = .ref r → h₀.Reaches (.ref o) r) : h.dig p v = h₀.dig p v := by
  induction p using List.reverseRecOn with
  | nil => rfl
  | append_singleton p name ih =>
    rw [dig_concat, dig_concat, ih]
    cases hu : h₀.dig p v with
    | none => rfl
    | some u =>
      rw [Option.bind_some, Option.bind_some]
      refine member_congr (hs.node?_eq fun r hr => ?_)
      subst hr
      cases v with
      | ref t => exact (hv t rfl).trans (reaches_of_dig hu)
      | _ => cases (eq_of_dig rfl hu).2

theorem isSome_dict? (hv : ∀ r, v = .ref r → h₀.Reaches (.ref o) r) :
    (h.dict? v).isSome = (h₀.dict? v).isSome := by
  rw [dict?, dict?, hs.node?_eq hv]

theorem reaches_dig (hv : ∀ r, v = .ref r → h₀.Reaches (.ref o) r)
    (hd : h.dig p v = some (.ref t)) : h₀.Reaches (.ref o) t := by
  rw [hs.dig_eq hv] at hd
  cases v with
  | ref r => exact (hv r rfl).trans (reaches_of_dig hd)
  | _ => cases (eq_of_dig rfl hd).2

end Spares

theorem Puts.dig_of_not_prefix {v : Value}
    (hp : Puts [p ++ [name]] v h k p name w r es fs) (hc : h.Closed) (hv : h.Holds v)
    (hsole : ∀ q, h.dig q v = some (.ref r) → q = p) (hq : ¬ p ++ [name] <+: q) :
    k.dig q v = h.dig q v := by
  rw [hp.dig hc hv (fun q _ => hsole q) fun c hc hcq => ?_, if_neg]
  · rintro rfl
    exact hq (List.prefix_refl _)
  · rw [List.mem_singleton.1 hc] at hcq
    exact absurd hcq hq

theorem Puts.dig_self {v : Value}
    (hp : Puts [p ++ [name]] v h k p name w r es fs) (hc : h.Closed) (hv : h.Holds v)
    (hsole : ∀ q, h.dig q v = some (.ref r) → q = p) : k.dig (p ++ [name]) v = some w := by
  rw [hp.dig hc hv (fun q _ => hsole q) fun c hc _ => List.mem_singleton.1 hc, if_pos rfl]

theorem eq_of_dig_filled {v : Value}
    (hself : (filled h r name ds).dig p v = some (.ref (h.alloc (.dict [])).1))
    (hds : h.get? r = some (.dict ds)) (hpre : p <+: q)
    (ht : (filled h r name ds).dig q v = some (.ref t)) :
    q = p ∧ t = (h.alloc (.dict [])).1 := by
  obtain ⟨q, rfl⟩ := hpre
  rw [dig_append, hself, Option.bind_some] at ht
  cases q with
  | nil =>
    cases ht
    exact ⟨List.append_nil _, rfl⟩
  | cons next q =>
    rw [dig, member_ref (get?_filled_fresh name hds)] at ht
    cases ht

/-- A record that is a tree of dictionaries and other values, and overrides with different keys that
lead to none of these dictionaries. -/
structure Separate (h : Heap) (root o : Ref) (es : Entries Value) : Prop where
  tree : ∀ p q r ds, h.get? r = some (.dict ds) → h.dig p (.ref root) = some (.ref r) →
    h.dig q (.ref root) = some (.ref r) → p = q
  apart : ∀ p r ds, h.get? r = some (.dict ds) → h.dig p (.ref root) = some (.ref r) →
    ¬ h.Reaches (.ref o) r
  distinct : (es.map fun e => e.1.asText?).Nodup

theorem Given.reaches_value (hg : Given h root o es) (he : e ∈ es) (hr : e.2 = .ref r) :
    h.Reaches (.ref o) r :=
  (Reaches.refl h o).element hg.given (Node.mem_elements_entry he).2 hr

/-- A record when some overrides are applied and what the overrides lead to stands as it did.
Dictionaries that the overrides do not lead to are each on one path; to the others every path goes
through a value that stands. -/
structure Halfway (h₀ : Heap) (o root : Ref) (done : Entries Value) (h : Heap) : Prop where
  applied : Applied h₀ root h
  spares : Spares h₀ o h
  sole : ∀ p q r ds, h.get? r = some (.dict ds) → ¬ h₀.Reaches (.ref o) r →
    h.dig p (.ref root) = some (.ref r) → h.dig q (.ref root) = some (.ref r) → p = q
  entry : ∀ p r ds, h.get? r = some (.dict ds) → h₀.Reaches (.ref o) r →
    h.dig p (.ref root) = some (.ref r) →
    ∃ d ∈ standing done, (h₀.dict? d.2).isSome ∧ keyPath d.1 <+: p
  given : ∀ d ∈ standing done, ∀ r, d.2 = .ref r → h₀.Reaches (.ref o) r
  stands : ∀ d ∈ standing done, (h₀.dict? d.2).isSome →
    h.dig (keyPath d.1) (.ref root) = some d.2

namespace Halfway

theorem start (hg : Given h root o es) (hsep : Separate h root o es) : Halfway h o root [] h where
  applied := ⟨hg.closed, fun _ hv => hv, hg.record⟩
  spares _ _ := rfl
  sole p q r ds hr _ := hsep.tree p q r ds hr
  entry p r ds hr hreach hd := absurd hreach (hsep.apart p r ds hr hd)
  given := List.forall_mem_nil _
  stands := List.forall_mem_nil _

variable (hh : Halfway h₀ o root done h)
include hh

theorem holds_root : h.Holds (.ref root) := by
  rintro _ ⟨⟩
  obtain ⟨ds, hds⟩ := hh.applied.record
  exact ⟨_, hds⟩

theorem spares_put {K : List (List String)} (hg : Given h₀ root o es)
    (hp : Puts K (.ref root) h k p name w r ds fs) (hr : ¬ h₀.Reaches (.ref o) r) :
    Spares h₀ o k := by
  intro t ht
  obtain ⟨node, hn⟩ := hg.exists_get? ht
  rw [hn]
  refine hp.others t node (fun he => hr (he ▸ ht)) ?_
  rw [hh.spares t ht, hn]

theorem applied_put {K : List (List String)} (hp : Puts K (.ref root) h k p name w r ds fs) :
    Applied h₀ root k := by
  obtain ⟨cs, hcs⟩ := hh.applied.record
  refine ⟨hp.closed, fun v hv s hs => ?_, hp.dicts hcs⟩
  obtain ⟨node, hn⟩ := hh.applied.holds v hv s hs
  by_cases he : s = r
  · subst he
    exact ⟨_, hp.after⟩
  · exact ⟨node, hp.others s node he hn⟩

theorem dict_before {K : List (List String)} (hp : Puts K (.ref root) h k p name w r ds fs)
    (hd : h.dig q (.ref root) = some (.ref t)) (ht : k.get? t = some (.dict es)) :
    ∃ cs, h.get? t = some (.dict cs) := by
  by_cases he : t = r
  · subst he
    exact ⟨ds, hp.before⟩
  · obtain ⟨node, hn⟩ := hh.applied.closed.holds_dig hh.holds_root hd t rfl
    rw [hp.get?_of_ne he hn] at ht
    exact ⟨es, ht⟩

theorem snoc (he : ∀ r, e.2 = .ref r → h₀.Reaches (.ref o) r) (happlied : Applied h₀ root k)
    (hspares : Spares h₀ o k) (hdig : k.dig (keyPath e.1) (.ref root) = some e.2)
    (hother : ∀ q, ¬ keyPath e.1 <+: q → k.dig q (.ref root) = h.dig q (.ref root))
    (hdicts : ∀ q t cs, h.dig q (.ref root) = some (.ref t) → k.get? t = some (.dict cs) →
      ∃ cs, h.get? t = some (.dict cs)) : Halfway h₀ o root (done ++ [e]) k := by
  have hbeyond : ∀ q t, keyPath e.1 <+: q → k.dig q (.ref root) = some (.ref t) →
      h₀.Reaches (.ref o) t := by
    rintro _ t ⟨q, rfl⟩ ht
    rw [dig_append, hdig, Option.bind_some] at ht
    exact hspares.reaches_dig he ht
  have haside : ∀ q t, ¬ h₀.Reaches (.ref o) t → k.dig q (.ref root) = some (.ref t) →
      h.dig q (.ref root) = some (.ref t) := by
    intro q t ht hq
    rwa [← hother q fun hpre => ht (hbeyond q t hpre hq)]
  refine ⟨happlied, hspares, ?_, ?_, ?_, ?_⟩
  · intro p q t cs ht hr hp hq
    have hp' := haside p t hr hp
    obtain ⟨cs, hcs⟩ := hdicts p t cs hp' ht
    exact hh.sole p q t cs hcs hr hp' (haside q t hr hq)
  · intro q t cs ht hr hq
    by_cases hpre : keyPath e.1 <+: q
    · refine ⟨e, mem_standing_snoc.2 (.inr rfl), ?_, hpre⟩
      obtain ⟨q, rfl⟩ := hpre
      rw [dig_append, hdig, Option.bind_some] at hq
      rw [← hspares.isSome_dict? he]
      exact isSome_dict?_of_dig hq ht
    · rw [hother q hpre] at hq
      obtain ⟨cs, hcs⟩ := hdicts q t cs hq ht
      obtain ⟨d, hd, hdict, hdq⟩ := hh.entry q t cs hcs hr hq
      exact ⟨d, mem_standing_snoc.2 (.inl ⟨hd, fun hed => hpre (hed.trans hdq)⟩), hdict, hdq⟩
  · intro d hd
    rcases mem_standing_snoc.1 hd with ⟨hd, -⟩ | rfl
    · exact hh.given d hd
    · exact he
  · intro d hd hdict
    rcases mem_standing_snoc.1 hd with ⟨hd, hpre⟩ | rfl
    · rw [hother _ hpre]
      exact hh.stands d hd hdict
    · exact hdig

theorem not_reaches_fresh (hg : Given h₀ root o es) :
    ¬ h₀.Reaches (.ref o) (h.alloc (.dict [])).1 := by
  intro hreach
  obtain ⟨node, hn⟩ := hg.exists_get? hreach
  rw [← hh.spares _ hreach, get?_alloc_fst] at hn
  cases hn

theorem dig_ne_fresh (q : List String) :
    h.dig q (.ref root) ≠ some (.ref (h.alloc (.dict [])).1) := by
  intro hq
  obtain ⟨node, hn⟩ := hh.applied.closed.holds_dig hh.holds_root hq _ rfl
  rw [get?_alloc_fst] at hn
  cases hn

theorem not_prefix_of_standing (hd : h.dig p (.ref root) = some (.ref r))
    (hds : h.get? r = some (.dict ds)) (hv : h.dict? ((lookupText name ds).getD .null) = none)
    (hmem : d ∈ standing done) (hdict : (h₀.dict? d.2).isSome) :
    ¬ p ++ [name] <+: keyPath d.1 := by
  have hstands := hh.stands d hmem hdict
  rintro ⟨q, hq⟩
  rw [← hq, dig_append, dig_concat, hd, Option.bind_some, member_ref hds,
    Option.bind_eq_some_iff] at hstands
  obtain ⟨u, hu, hdu⟩ := hstands
  rw [hu, Option.getD_some] at hv
  rw [← hh.spares.isSome_dict? (hh.given d hmem), (eq_of_dig hv hdu).2, hv] at hdict
  cases hdict

theorem fill (hg : Given h₀ root o es) (hd : h.dig p (.ref root) = some (.ref r))
    (hds : h.get? r = some (.dict ds)) (hr : ¬ h₀.Reaches (.ref o) r)
    (hv : h.dict? ((lookupText name ds).getD .null) = none) :
    Halfway h₀ o root done (filled h r name ds) ∧
      (filled h r name ds).dig (p ++ [name]) (.ref root) = some (.ref (h.alloc (.dict [])).1) ∧
      ¬ h₀.Reaches (.ref o) (h.alloc (.dict [])).1 := by
  obtain ⟨fs, hp⟩ := puts_filled name hh.applied.closed hd hds
  have hsole : ∀ q, h.dig q (.ref root) = some (.ref r) → q = p :=
    fun q hq => hh.sole q p r ds hds hr hq hd
  have hself := hp.dig_self hh.applied.closed hh.holds_root hsole
  have hother := fun q => hp.dig_of_not_prefix (q := q) hh.applied.closed hh.holds_root hsole
  have hnew := hh.not_reaches_fresh hg
  refine ⟨⟨hh.applied_put hp, hh.spares_put hg hp hr, ?_, ?_, hh.given, ?_⟩, hself, hnew⟩
  · intro q q' t cs ht hreach hq hq'
    by_cases hpre : p ++ [name] <+: q <;> by_cases hpre' : p ++ [name] <+: q'
    · rw [(eq_of_dig_filled hself hds hpre hq).1, (eq_of_dig_filled hself hds hpre' hq').1]
    · rw [hother q' hpre', (eq_of_dig_filled hself hds hpre hq).2] at hq'
      exact absurd hq' (hh.dig_ne_fresh q')
    · rw [hother q hpre, (eq_of_dig_filled hself hds hpre' hq').2] at hq
      exact absurd hq (hh.dig_ne_fresh q)
    · rw [hother q hpre] at hq
      rw [hother q' hpre'] at hq'
      obtain ⟨cs, hcs⟩ := hh.dict_before hp hq ht
      exact hh.sole q q' t cs hcs hreach hq hq'
  · intro q t cs ht hreach hq
    have hpre : ¬ p ++ [name] <+: q := by
      intro hpre
      rw [(eq_of_dig_filled hself hds hpre hq).2] at hreach
      exact hnew hreach
    rw [hother q hpre] at hq
    obtain ⟨cs, hcs⟩ := hh.dict_before hp hq ht
    exact hh.entry q t cs hcs hreach hq
  · intro d hmem hdict
    rw [hother _ (hh.not_prefix_of_standing hd hds hv hmem hdict), hh.stands d hmem hdict]

theorem put (hg : Given h₀ root o es) (he : ∀ r, e.2 = .ref r → h₀.Reaches (.ref o) r)
    (hpath : p ++ [name] = keyPath e.1) (hd : h.dig p (.ref root) = some (.ref r))
    (hr : ¬ h₀.Reaches (.ref o) r)
    (hp : Puts [p ++ [name]] (.ref root) h k p name e.2 r ds fs) :
    Halfway h₀ o root (done ++ [e]) k := by
  have hsole : ∀ q, h.dig q (.ref root) = some (.ref r) → q = p :=
    fun q hq => hh.sole q p r ds hp.before hr hq hd
  refine hh.snoc he (hh.applied_put hp) (hh.spares_put hg hp hr) ?_ (fun q hq => ?_)
    fun q t cs => hh.dict_before hp
  · rw [← hpath]
    exact hp.dig_self hh.applied.closed hh.holds_root hsole
  · rw [← hpath] at hq
    exact hp.dig_of_not_prefix hh.applied.closed hh.holds_root hsole hq

theorem writes (hg : Given h₀ root o es) (he : e ∈ es) (hw : Writes e.2 h r names k)
    (hpath : p ++ names = keyPath e.1) (hd : h.dig p (.ref root) = some (.ref r))
    (hr : ∀ t, landing h (.ref r) names = .ref t → ¬ h₀.Reaches (.ref o) t) :
    Halfway h₀ o root (done ++ [e]) k := by
  induction hw generalizing p with
  | @put _ r _ _ _ hkey hes =>
    have hheld := hh.applied.holds _ (hg.closed.holds_entry hg.given he).2
    exact hh.put hg (fun _ => hg.reaches_value he) hpath hd (hr r rfl)
      (puts_assigned hh.applied.closed hheld hkey hd hes)
  | @fill h _ r es name names hes hne hv hw ih =>
    have hland : landing h (.ref r) (name :: names) = .ref r :=
      landing_filled (by rw [member_ref hes]; exact hv)
    obtain ⟨hfill, hdig, hnew⟩ := hh.fill hg hd hes (hr r hland) hv
    have hfresh := get?_filled_fresh name hes
    rw [List.append_cons] at hpath
    refine ih hfill hpath hdig fun t ht => ?_
    cases names with
    | nil => exact absurd rfl hne
    | cons next names =>
      rw [landing_filled (by rw [member_ref hfresh]; rfl)] at ht
      cases ht
      exact hnew
  | @enter h _ r t es ds name names hes hne hu ht hw ih =>
    have hm : h.member name (.ref r) = some (.ref t) := by rw [member_ref hes, hu]
    rw [landing_found hm (by rw [dict?_ref ht]; rfl) hne] at hr
    rw [List.append_cons] at hpath
    exact ih hh hpath (by rw [dig_concat, hd, Option.bind_some, hm]) hr

theorem applyOne (hg : Given h₀ root o es) (he : e ∈ es)
    (haside : ∀ t, landing h (.ref root) (keyPath e.1) = .ref t → h₀.Reaches (.ref o) t →
      h.dig (keyPath e.1) (.ref root) = some e.2) :
    ∃ k, Settings.applyOne h (.ref root) e.1 e.2 = .ok k ∧
      Halfway h₀ o root (done ++ [e]) k := by
  obtain ⟨s, hs⟩ := hg.texts e he
  obtain ⟨ds, hds⟩ := hh.applied.record
  obtain ⟨k, hrun, hw⟩ := applyOne_writes (v := e.2) hs hds
  refine ⟨k, hrun, ?_⟩
  by_cases hthere : h.dig (keyPath e.1) (.ref root) = some e.2
  · have hl := hw.lands hh.applied.closed
      (hh.applied.holds _ (hg.closed.holds_entry hg.given he).2)
    obtain rfl := hl.same hthere
    exact hh.snoc (fun _ => hg.reaches_value he) hh.applied hh.spares hthere (fun _ _ => rfl)
      fun _ _ cs _ hcs => ⟨cs, hcs⟩
  · exact hh.writes hg he hw (p := []) rfl rfl
      fun t ht hreach => hthere (haside t ht hreach)

/-- An override is written aside exactly if its key does not lead into a value that stands. -/
theorem aside_iff_clear (hfresh : ∀ d ∈ done, keyPath d.1 ≠ keyPath e.1) :
    (∀ t, landing h (.ref root) (keyPath e.1) = .ref t → h₀.Reaches (.ref o) t →
      h.dig (keyPath e.1) (.ref root) = some e.2) ↔ Clear h₀ done e := by
  constructor
  · intro haside d hd hdict hpre
    obtain ⟨names, hnames⟩ := hpre
    have hstands := hh.stands d hd hdict
    have hdict' := hdict
    rw [← hh.spares.isSome_dict? (hh.given d hd)] at hdict'
    have hne : names ≠ [] := by
      rintro rfl
      exact hfresh d (mem_of_mem_standing hd) (by rw [← hnames, List.append_nil])
    obtain ⟨cs, hcs⟩ := Option.isSome_iff_exists.1 hdict'
    obtain ⟨p, t, fs, -, hp, -, hland⟩ := exists_landing names hcs
    have hreach := hh.spares.reaches_dig (hh.given d hd) hp
    have hdig := haside t (by rw [← hnames, landing_append hstands hdict' hne, hland]) hreach
    rw [← hnames, dig_append, hstands, Option.bind_some,
      hh.spares.dig_eq (hh.given d hd)] at hdig
    rw [← hnames, List.drop_left, hdig]
  · intro hclear t ht hreach
    obtain ⟨cs, hcs⟩ := hh.applied.record
    obtain ⟨p, t', fs, hpre, hp, hfs, hland⟩ :=
      exists_landing (keyPath e.1) (dict?_ref hcs)
    obtain rfl := Value.ref.inj (ht.symm.trans hland)
    obtain ⟨d, hd, hdict, hdp⟩ := hh.entry p t fs hfs hreach hp
    have hthere := hclear d hd hdict (hdp.trans hpre)
    obtain ⟨names, hnames⟩ := hdp.trans hpre
    rw [← hnames, List.drop_left] at hthere
    rw [← hnames, dig_append, hh.stands d hd hdict, Option.bind_some,
      hh.spares.dig_eq (hh.given d hd), hthere]

end Halfway

namespace Separate

variable (hg : Given h root o es) (hsep : Separate h root o es)
include hg hsep

/-- While each override is written aside, the record is halfway. -/
theorem halfway (haside : ∀ cs e k, cs ++ [e] <+: es → applyEach (.ref root) cs h = .ok k →
      Halfway h o root cs k →
      ∀ t, landing k (.ref root) (keyPath e.1) = .ref t → h.Reaches (.ref o) t →
        k.dig (keyPath e.1) (.ref root) = some e.2) (hds : ds <+: es) :
    ∃ k, applyEach (.ref root) ds h = .ok k ∧ Halfway h o root ds k := by
  induction ds using List.reverseRecOn with
  | nil => exact ⟨h, rfl, .start hg hsep⟩
  | append_singleton ds e ih =>
    obtain ⟨k, hrun, hk⟩ := ih ((List.prefix_append ds [e]).trans hds)
    obtain ⟨l, hone, hl⟩ :=
      hk.applyOne hg (hds.subset List.mem_concat_self) (haside ds e k hds hrun hk)
    refine ⟨l, ?_, hl⟩
    rw [applyEach_snoc, hrun, ok_bind, hone]

theorem writesAside_iff : WritesAside h root o es ↔ Bypasses h es := by
  rw [bypasses_iff]
  constructor
  · intro haside ds e hds
    obtain ⟨k, hrun, hk⟩ := hsep.halfway hg (fun cs e k hcs hrun _ => haside cs e hcs k hrun)
      ((List.prefix_append ds [e]).trans hds)
    exact (hk.aside_iff_clear (keyPath_ne_of_nodup hg.texts hsep.distinct hds)).1
      (haside ds e hds k hrun)
  · intro hclear ds e hds k hrun
    have haside : ∀ cs e k, cs ++ [e] <+: es → Halfway h o root cs k →
        ∀ t, landing k (.ref root) (keyPath e.1) = .ref t → h.Reaches (.ref o) t →
          k.dig (keyPath e.1) (.ref root) = some e.2 := fun cs e k hcs hk =>
      (hk.aside_iff_clear (keyPath_ne_of_nodup hg.texts hsep.distinct hcs)).2 (hclear cs e hcs)
    obtain ⟨k', hrun', hk⟩ := hsep.halfway hg (fun cs e k hcs _ => haside cs e k hcs)
      ((List.prefix_append ds [e]).trans hds)
    obtain rfl := Except.ok.inj (hrun.symm.trans hrun')
    exact haside ds e k hds hk

end Separate

/-- Applying overrides to a record leaves what the overrides lead to as it is, at any time, exactly
if nothing is written into it that is not there; the run then ends with it unchanged. Where the
record is a tree that the overrides do not lead to, this depends on the overrides alone: no key may
lead on from the key of an earlier one whose value, a dictionary, still stands, to anything but what
is there. -/
theorem override_spares (hg : Given h root o es) :
    (LeavesAlone h root o es ↔ WritesAside h root o es) ∧
      (LeavesAlone h root o es →
        ∃ k, override h (.ref root) (.ref o) = .ok k ∧ Spares h o k) ∧
      (Separate h root o es → (LeavesAlone h root o es ↔ Bypasses h es)) :=
  ⟨hg.leavesAlone_iff, hg.override_of_leavesAlone,
    fun hsep => hg.leavesAlone_iff.trans (hsep.writesAside_iff hg)⟩

/-- A record with a level below, and overrides that put a dictionary into it, write there what is
there, and then go another way. -/
def branching : Heap where
  nodes := #[.dict [(.text "a", .ref ⟨1⟩)],
    .dict [(.text "x", .int 1)],
    .dict [(.text "b", .ref ⟨3⟩), (.text "b.y", .int 2), (.text "a.z", .int 3)],
    .dict [(.text "y", .int 2)]]

theorem branching_dig (hd : branching.dig p (.ref ⟨0⟩) = some (.ref r)) :
    p = [] ∧ r = ⟨0⟩ ∨ p = ["a"] ∧ r = ⟨1⟩ := by
  have hroot : branching.get? ⟨0⟩ = some (.dict [(.text "a", .ref ⟨1⟩)]) := rfl
  have hinner : branching.get? ⟨1⟩ = some (.dict [(.text "x", .int 1)]) := rfl
  rcases p with - | ⟨name, - | ⟨next, p⟩⟩
  · cases hd
    exact .inl ⟨rfl, rfl⟩
  · rw [dig, member_ref hroot, Option.bind_eq_some_iff] at hd
    obtain ⟨u, hu, hd⟩ := hd
    cases hd
    by_cases ha : name = "a"
    · subst ha
      cases hu
      exact .inr ⟨rfl, rfl⟩
    · simp [lookupText, Value.asText?, Ne.symm ha] at hu
  · rw [dig, member_ref hroot, Option.bind_eq_some_iff] at hd
    obtain ⟨u, hu, hd⟩ := hd
    by_cases ha : name = "a"
    · subst ha
      cases hu
      rw [dig, member_ref hinner, Option.bind_eq_some_iff] at hd
      obtain ⟨u, hu, hd⟩ := hd
      by_cases hx : next = "x"
      · subst hx
        cases hu
        cases (eq_of_dig rfl hd).2
      · simp [lookupText, Value.asText?, Ne.symm hx] at hu
    · simp [lookupText, Value.asText?, Ne.symm ha] at hu

theorem branching_reaches (hr : branching.Reaches (.ref ⟨2⟩) r) : r ∈ [⟨2⟩, ⟨3⟩] :=
  hr.mem (by decide) (by decide)

theorem override_spares_branching :
    ∃ k, override branching (.ref ⟨0⟩) (.ref ⟨2⟩) = .ok k ∧ Spares branching ⟨2⟩ k := by
  have hg : Given branching ⟨0⟩ ⟨2⟩
      [(.text "b", .ref ⟨3⟩), (.text "b.y", .int 2), (.text "a.z", .int 3)] :=
    { closed := by decide
      record := ⟨_, rfl⟩
      given := rfl
      texts := by simp [Value.asText?] }
  have hsep : Separate branching ⟨0⟩ ⟨2⟩
      [(.text "b", .ref ⟨3⟩), (.text "b.y", .int 2), (.text "a.z", .int 3)] :=
    { tree := fun p q r _ _ hp hq => by
        rcases branching_dig hp with ⟨rfl, rfl⟩ | ⟨rfl, rfl⟩ <;>
          rcases branching_dig hq with ⟨rfl, he⟩ | ⟨rfl, he⟩ <;> first | rfl | cases he
      apart := fun p r _ _ hp hr => by
        rcases branching_dig hp with ⟨rfl, rfl⟩ | ⟨rfl, rfl⟩ <;>
          exact absurd (branching_reaches hr) (by decide)
      distinct := by decide }
  obtain ⟨-, hspares, hbypasses⟩ := override_spares hg
  exact hspares ((hbypasses hsep).2 (by decide))

/-- An empty record, and overrides of which the second leads into the value of the first. -/
def extended : Heap where
  nodes := #[.dict [],
    .dict [(.text "resilience", .ref ⟨2⟩), (.text "resilience.critical_threshold", .int 20)],
    .dict [(.text "frequent_threshold", .int 3)]]

theorem not_spares_extended :
    Given extended ⟨0⟩ ⟨1⟩
      [(.text "resilience", .ref ⟨2⟩), (.text "resilience.critical_threshold", .int 20)] ∧
    ∃ k, override extended (.ref ⟨0⟩) (.ref ⟨1⟩) = .ok k ∧ ¬ Spares extended ⟨1⟩ k := by
  refine ⟨⟨by decide, ⟨_, rfl⟩, rfl, by simp [Value.asText?]⟩, _, rfl, fun hs => ?_⟩
  have hreach : extended.Reaches (.ref ⟨1⟩) ⟨2⟩ := ⟨[.slot 0], rfl⟩
  exact absurd (hs ⟨2⟩ hreach) (by decide)

end Settings

end Promptbook
