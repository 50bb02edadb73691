import Promptbook.Proofs.Settings.Assigned

namespace Promptbook

namespace Entries

variable {h : Heap} {key x : Value} {es : Entries Value} {s : String}

theorem put_eq_self (hs : key.asText? = some s) (hx : lookupText s es = some x) :
    put h key x es = es := by
  induction es with
  | nil => cases hx
  | cons e es ih =>
    rw [put, sameKey_of_text hs]
    by_cases he : e.1.asText? = some s
    · have hex : e.2 = x := by simpa [lookupText, he] using hx
      simp [he, ← hex]
    · have hrest : lookupText s es = some x := by simpa [lookupText, he] using hx
      simp [he, ih hrest]

end Entries

theorem Heap.set_eq_self {h : Heap} {r : Ref} {node : Node} (hr : h.get? r = some node) :
    h.set r node = h := by
  obtain ⟨hlt, hn⟩ := Array.getElem?_eq_some_iff.1 hr
  simp [set, Array.setIfInBounds, hlt, ← hn]

namespace Settings

open Promptbook.Heap

variable {h k l : Heap} {root o : Ref} {v w u key : Value} {p names : List String}
  {name s : String} {r t : Ref} {es fs ds : Entries Value} {e : Value × Value}

/-- The last dictionary on the way to the end of a path, into which what goes there is written. -/
def landing (h : Heap) (v : Value) : List String → Value
  | name :: next :: names =>
    match h.member name v with
    | some u => if (h.dict? u).isSome then landing h u (next :: names) else v
    | none => v
  | _ => v

theorem landing_found (hu : h.member name v = some u) (hd : (h.dict? u).isSome)
    (hne : names ≠ []) : landing h v (name :: names) = landing h u names := by
  cases names with
  | nil => exact absurd rfl hne
  | cons next names => rw [landing, hu]; exact if_pos hd

theorem landing_filled (hv : h.dict? ((h.member name v).getD .null) = none) :
    landing h v (name :: names) = v := by
  cases names with
  | nil => rfl
  | cons next names =>
    rw [landing]
    cases hu : h.member name v with
    | none => rfl
    | some u =>
      rw [hu, Option.getD_some] at hv
      simp only [hv, Option.isSome_none, Bool.false_eq_true, if_false]

theorem landing_append (hd : h.dig p v = some u) (hu : (h.dict? u).isSome) (hne : names ≠ []) :
    landing h v (p ++ names) = landing h u names := by
  induction p generalizing v with
  | nil =>
    cases hd
    rfl
  | cons name p ih =>
    rw [dig, Option.bind_eq_some_iff] at hd
    obtain ⟨x, hx, hd⟩ := hd
    cases hxd : h.dict? x with
    | some _ => rw [List.cons_append, landing_found hx (by rw [hxd]; rfl) (by simp [hne]), ih hd]
    | none =>
      obtain ⟨-, rfl⟩ := eq_of_dig hxd hd
      rw [hxd] at hu
      cases hu

/-- What is written at the end of a path goes into a dictionary at the end of a part of it. -/
theorem exists_landing (names : List String) (hv : h.dict? v = some es) :
    ∃ p t fs, p <+: names ∧ h.dig p v = some (.ref t) ∧ h.get? t = some (.dict fs) ∧
      landing h v names = .ref t := by
  induction names generalizing v es with
  | nil =>
    obtain ⟨r, rfl, hr⟩ := exists_of_dict? hv
    exact ⟨[], r, es, List.prefix_refl _, rfl, hr, rfl⟩
  | cons name names ih =>
    cases hm : h.dict? ((h.member name v).getD .null) with
    | none =>
      obtain ⟨r, rfl, hr⟩ := exists_of_dict? hv
      exact ⟨[], r, es, List.nil_prefix, rfl, hr, landing_filled hm⟩
    | some ds =>
      cases hu : h.member name v with
      | none =>
        rw [hu] at hm
        cases hm
      | some u =>
        rw [hu, Option.getD_some] at hm
        cases names with
        | nil =>
          obtain ⟨r, rfl, hr⟩ := exists_of_dict? hv
          exact ⟨[], r, es, List.nil_prefix, rfl, hr, rfl⟩
        | cons next names =>
          obtain ⟨p, t, fs, hp, hd, ht, hland⟩ := ih hm
          refine ⟨name :: p, t, fs, (List.prefix_cons_inj name).2 hp, ?_, ht, ?_⟩
          · rw [dig, hu, Option.bind_some, hd]
          · rw [landing_found hu (by rw [hm]; rfl) (List.cons_ne_nil next names), hland]

theorem puts_filled {v : Value} (name : String) (hc : h.Closed) (hd : h.dig p v = some (.ref r))
    (hes : h.get? r = some (.dict es)) :
    ∃ fs, Puts [p ++ [name]] v h (filled h r name es) p name (.ref (h.alloc (.dict [])).1) r
      es fs := by
  refine ⟨_, puts_set (Extends.alloc h _) (hc.alloc (by simp [Node.elements])) ?_
    (Value.asText?_text name) ⟨_, List.mem_singleton_self _, List.prefix_refl _⟩ hd hes
    (.inl (List.mem_singleton_self _))⟩
  intro f hf
  cases hf
  exact ⟨_, get?_alloc h _⟩

theorem puts_assigned {v : Value} (hc : h.Closed) (hw : h.Holds w) (hkey : key.asText? = some name)
    (hd : h.dig p v = some (.ref r)) (hes : h.get? r = some (.dict es)) :
    Puts [p ++ [name]] v h (h.set r (.dict (Entries.put h key w es))) p name w r es
      (Entries.put h key w es) :=
  puts_set (Extends.refl h) hc hw hkey ⟨_, List.mem_singleton_self _, List.prefix_refl _⟩ hd hes
    (.inl (List.mem_singleton_self _))

/-- Of all containers at most the one where a path lands is changed, and that one is unless what is
written is there already. -/
structure Lands (h : Heap) (v w : Value) (names : List String) (l : Heap) : Prop where
  closed : l.Closed
  dicts : ∀ s ds, h.get? s = some (.dict ds) → ∃ fs, l.get? s = some (.dict fs)
  others : ∀ s node, h.get? s = some node → landing h v names ≠ .ref s → l.get? s = some node
  changed : ∀ s, landing h v names = .ref s → l.get? s = h.get? s → h.dig names v = some w
  same : h.dig names v = some w → l = h

theorem Puts.dicts {K : List (List String)} (hp : Puts K v h k p name w r es fs)
    (ht : h.get? t = some (.dict ds)) : ∃ cs, k.get? t = some (.dict cs) := by
  by_cases he : t = r
  · exact ⟨fs, he ▸ hp.after⟩
  · exact ⟨ds, hp.others t _ he ht⟩

theorem Lands.holds (hl : Lands h v w names l) (hland : ∃ t ds, landing h v names = .ref t ∧
    h.get? t = some (.dict ds)) (hu : h.Holds u) : l.Holds u := by
  intro s hs
  obtain ⟨node, hn⟩ := hu s hs
  obtain ⟨t, ds, ht, hds⟩ := hland
  by_cases he : t = s
  · subst he
    obtain ⟨fs, hfs⟩ := hl.dicts t ds hds
    exact ⟨_, hfs⟩
  · exact ⟨node, hl.others s node hn (by rw [ht]; exact fun heq => he (Value.ref.inj heq))⟩

theorem Lands.put (hc : h.Closed) (hw : h.Holds w) (hkey : key.asText? = some name)
    (hes : h.get? r = some (.dict es)) :
    Lands h (.ref r) w [name] (h.set r (.dict (Entries.put h key w es))) := by
  have hp := puts_assigned (p := []) (v := .ref r) hc hw hkey rfl hes
  have hdig : h.dig [name] (.ref r) = lookupText name es := by
    rw [dig, member_ref hes]
    exact Option.bind_fun_some _
  refine ⟨hp.closed, fun t ds => hp.dicts, ?_, ?_, ?_⟩
  · exact fun s node hn hs => hp.others s node (fun he => hs (congrArg Value.ref he.symm)) hn
  · rintro s ⟨⟩ he
    rw [hp.after, hes] at he
    have hput := hp.lookup name
    rw [if_pos rfl, Node.dict.inj (Option.some.inj he)] at hput
    rw [hdig, hput]
  · intro hd
    rw [hdig] at hd
    rw [Entries.put_eq_self hkey hd, set_eq_self hes]

theorem lookupText_ne_alloc (hc : h.Closed) (hes : h.get? r = some (.dict es)) (name : String)
    (node : Node) : lookupText name es ≠ some (.ref (h.alloc node).1) := by
  intro hl
  rw [lookupText, Option.map_eq_some_iff] at hl
  obtain ⟨e, he, href⟩ := hl
  obtain ⟨old, hold⟩ := (hc.holds_entry hes (List.mem_of_find?_eq_some he)).2 _ href
  rw [get?_alloc_fst] at hold
  cases hold

theorem landing_fresh (name : String) (hes : h.get? r = some (.dict es)) (names : List String) :
    landing (filled h r name es) (.ref (h.alloc (.dict [])).1) names =
      .ref (h.alloc (.dict [])).1 := by
  cases names with
  | nil => rfl
  | cons next names =>
    apply landing_filled
    rw [member_ref (get?_filled_fresh name hes)]
    rfl

theorem Lands.filled (hc : h.Closed) (hes : h.get? r = some (.dict es)) (hne : names ≠ [])
    (hv : h.dict? ((lookupText name es).getD .null) = none)
    (hl : Lands (filled h r name es) (.ref (h.alloc (.dict [])).1) w names l) :
    Lands h (.ref r) w (name :: names) l := by
  obtain ⟨fs, hp⟩ := puts_filled (p := []) (v := .ref r) name hc rfl hes
  have hland : landing h (.ref r) (name :: names) = .ref r :=
    landing_filled (by rw [member_ref hes]; exact hv)
  have hkept : ∀ s node, h.get? s = some node →
      l.get? s = (Settings.filled h r name es).get? s := by
    intro s node hn
    obtain ⟨node', hn'⟩ : ∃ node', (Settings.filled h r name es).get? s = some node' := by
      by_cases he : s = r
      · subst he
        exact ⟨_, hp.after⟩
      · exact ⟨node, hp.others s node he hn⟩
    rw [hn']
    refine hl.others s node' hn' ?_
    rw [landing_fresh name hes]
    rintro ⟨⟩
    rw [get?_alloc_fst] at hn
    cases hn
  have hnone : h.dig (name :: names) (.ref r) ≠ some w := by
    rw [dig, member_ref hes]
    cases hu : lookupText name es with
    | none => exact fun hd => by cases hd
    | some u =>
      rw [hu, Option.getD_some] at hv
      exact fun hd => hne (eq_of_dig hv hd).1
  refine ⟨hl.closed, fun t ds ht => ?_, fun s node hn hs => ?_, fun s hs he => ?_,
    fun hd => absurd hd hnone⟩
  · rw [hkept t _ ht]
    exact hp.dicts ht
  · rw [hkept s node hn]
    exact hp.others s node (fun he => hs (by rw [hland, he])) hn
  · rw [hland] at hs
    cases hs
    rw [hkept r _ hes, hp.after, hes] at he
    have hput := hp.lookup name
    rw [if_pos rfl, Node.dict.inj (Option.some.inj he)] at hput
    exact absurd hput (lookupText_ne_alloc hc hes name _)

theorem Lands.found (hes : h.get? r = some (.dict es)) (hl : lookupText name es = some u)
    (hu : (h.dict? u).isSome) (hne : names ≠ []) (hlands : Lands h u w names l) :
    Lands h (.ref r) w (name :: names) l := by
  have hm : h.member name (.ref r) = some u := by rw [member_ref hes, hl]
  have hland := landing_found hm hu hne
  have hdig : h.dig (name :: names) (.ref r) = h.dig names u := by
    rw [dig, hm, Option.bind_some]
  exact ⟨hlands.closed, hlands.dicts, hland ▸ hlands.others, hland ▸ hdig ▸ hlands.changed,
    hdig ▸ hlands.same⟩

theorem Writes.lands (hwr : Writes w h r names l) (hc : h.Closed) (hw : h.Holds w) :
    Lands h (.ref r) w names l := by
  induction hwr with
  | put hkey hes => exact .put hc hw hkey hes
  | fill hes hne hv _ ih =>
    obtain ⟨fs, hp⟩ := puts_filled (p := []) (v := .ref _) _ hc rfl hes
    exact (ih hp.closed (((Extends.alloc _ _).holds hw).set _ _)).filled hc hes hne hv
  | enter hes hne hu ht _ ih =>
    exact (ih hc hw).found hes hu (by rw [dict?_ref ht]; rfl) hne

def applyEach (target : Value) (es : Entries Value) (h : Heap) : Except Fault Heap :=
  es.foldlM (fun k e => applyOne k target e.1 e.2) h

theorem applyEach_snoc (target : Value) (es : Entries Value) (e : Value × Value) (h : Heap) :
    applyEach target (es ++ [e]) h =
      applyEach target es h >>= fun k => applyOne k target e.1 e.2 := by
  simp [applyEach, List.foldlM_append]

def Spares (h : Heap) (o : Ref) (k : Heap) : Prop :=
  ∀ r, h.Reaches (.ref o) r → k.get? r = h.get? r

/-- What overrides lead to stands as it did at any time while they are applied. -/
def LeavesAlone (h : Heap) (root o : Ref) (es : Entries Value) : Prop :=
  ∀ ds, ds <+: es → ∃ k, applyEach (.ref root) ds h = .ok k ∧ Spares h o k

/-- Nothing is written into what overrides lead to, unless it is there already. -/
def WritesAside (h : Heap) (root o : Ref) (es : Entries Value) : Prop :=
  ∀ ds e, ds ++ [e] <+: es → ∀ k, applyEach (.ref root) ds h = .ok k →
    ∀ t, landing k (.ref root) (keyPath e.1) = .ref t → h.Reaches (.ref o) t →
      k.dig (keyPath e.1) (.ref root) = some e.2

structure Given (h : Heap) (root o : Ref) (es : Entries Value) : Prop where
  closed : h.Closed
  record : ∃ ds, h.get? root = some (.dict ds)
  given : h.get? o = some (.dict es)
  texts : ∀ e ∈ es, ∃ s, e.1.asText? = some s

structure Applied (h : Heap) (root : Ref) (k : Heap) : Prop where
  closed : k.Closed
  holds : ∀ v, h.Holds v → k.Holds v
  record : ∃ ds, k.get? root = some (.dict ds)

namespace Given

variable (hg : Given h root o es)
include hg

theorem exists_get? (hr : h.Reaches (.ref o) r) : ∃ node, h.get? r = some node := by
  refine hg.closed.reached ?_ hr
  rintro t ⟨⟩
  exact ⟨_, hg.given⟩

theorem applyOne_lands (he : e ∈ es) (hk : Applied h root k) :
    ∃ l, applyOne k (.ref root) e.1 e.2 = .ok l ∧ Lands k (.ref root) e.2 (keyPath e.1) l ∧
      Applied h root l := by
  obtain ⟨s, hs⟩ := hg.texts e he
  obtain ⟨cs, hcs⟩ := hk.record
  obtain ⟨l, hrun, hwr⟩ := applyOne_writes (v := e.2) hs hcs
  have hl := hwr.lands hk.closed (hk.holds _ (hg.closed.holds_entry hg.given he).2)
  obtain ⟨p, t, fs, -, -, ht, hland⟩ := exists_landing (keyPath e.1) (dict?_ref hcs)
  exact ⟨l, hrun, hl, hl.closed, fun v hv => hl.holds ⟨t, fs, hland, ht⟩ (hk.holds v hv),
    hl.dicts root cs hcs⟩

theorem applyEach (hds : ds <+: es) :
    ∃ k, applyEach (.ref root) ds h = .ok k ∧ Applied h root k := by
  induction ds using List.reverseRecOn with
  | nil => exact ⟨h, rfl, hg.closed, fun _ hv => hv, hg.record⟩
  | append_singleton ds e ih =>
    obtain ⟨k, hrun, hk⟩ := ih ((List.prefix_append ds [e]).trans hds)
    obtain ⟨l, hone, -, hl⟩ := hg.applyOne_lands (hds.subset List.mem_concat_self) hk
    refine ⟨l, ?_, hl⟩
    rw [applyEach_snoc, hrun, ok_bind, hone]

theorem applyEach_snoc (hds : ds ++ [e] <+: es)
    (hrun : Settings.applyEach (.ref root) ds h = .ok k) :
    ∃ l, Settings.applyEach (.ref root) (ds ++ [e]) h = .ok l ∧
      Lands k (.ref root) e.2 (keyPath e.1) l := by
  obtain ⟨k', hrun', hk⟩ := hg.applyEach ((List.prefix_append ds [e]).trans hds)
  rw [hrun] at hrun'
  cases hrun'
  obtain ⟨l, hone, hl, -⟩ := hg.applyOne_lands (hds.subset List.mem_concat_self) hk
  refine ⟨l, ?_, hl⟩
  rw [Settings.applyEach_snoc, hrun, ok_bind, hone]

theorem spares_snoc (hk : Spares h o k) (hl : Lands k (.ref root) e.2 (keyPath e.1) l) :
    Spares h o l ↔ ∀ t, landing k (.ref root) (keyPath e.1) = .ref t → h.Reaches (.ref o) t →
      k.dig (keyPath e.1) (.ref root) = some e.2 := by
  constructor
  · intro hsp t ht hr
    exact hl.changed t ht ((hsp t hr).trans (hk t hr).symm)
  · intro haside r hr
    by_cases he : landing k (.ref root) (keyPath e.1) = .ref r
    · rw [hl.same (haside r he hr), hk r hr]
    · obtain ⟨node, hn⟩ := hg.exists_get? hr
      rw [hn]
      exact hl.others r node ((hk r hr).trans hn) he

/-- What overrides lead to is left alone if nothing is written into it, and only then. -/
theorem leavesAlone_iff : LeavesAlone h root o es ↔ WritesAside h root o es := by
  constructor
  · intro halone ds e hds k hrun
    obtain ⟨k', hrun', hk⟩ := halone ds ((List.prefix_append ds [e]).trans hds)
    obtain rfl := Except.ok.inj (hrun.symm.trans hrun')
    obtain ⟨l, hnext, hl⟩ := hg.applyEach_snoc hds hrun
    obtain ⟨l', hnext', hsp⟩ := halone _ hds
    obtain rfl := Except.ok.inj (hnext.symm.trans hnext')
    exact (hg.spares_snoc hk hl).1 hsp
  · intro haside ds hds
    induction ds using List.reverseRecOn with
    | nil => exact ⟨h, rfl, fun _ _ => rfl⟩
    | append_singleton ds e ih =>
      obtain ⟨k, hrun, hk⟩ := ih ((List.prefix_append ds [e]).trans hds)
      obtain ⟨l, hnext, hl⟩ := hg.applyEach_snoc hds hrun
      exact ⟨l, hnext, (hg.spares_snoc hk hl).2 (haside ds e hds k hrun)⟩

theorem applyFrom_of_leavesAlone (halone : LeavesAlone h root o es) (hes : es = ds ++ fs)
    (hrun : Settings.applyEach (.ref root) ds h = .ok k) :
    ∃ l, applyFrom o es.length (.ref root) fs.length k = .ok l ∧
      Settings.applyEach (.ref root) es h = .ok l := by
  induction fs generalizing ds k with
  | nil =>
    rw [List.append_nil] at hes
    obtain ⟨k', hrun', hk⟩ := halone ds (hes ▸ List.prefix_refl ds)
    obtain rfl := Except.ok.inj (hrun.symm.trans hrun')
    exact ⟨k, applyFrom_end _ ((hk o (.refl h o)).trans hg.given), hes ▸ hrun⟩
  | cons e fs ih =>
    have hds : ds ++ [e] <+: es := ⟨fs, by rw [hes, ← List.append_cons]⟩
    obtain ⟨k', hrun', hk⟩ := halone ds ((List.prefix_append ds [e]).trans hds)
    obtain rfl := Except.ok.inj (hrun.symm.trans hrun')
    obtain ⟨l, hnext, -⟩ := hg.applyEach_snoc hds hrun
    obtain ⟨m, hm, hall⟩ := ih (by rw [hes, List.append_cons]) hnext
    refine ⟨m, ?_, hall⟩
    rw [Settings.applyEach_snoc, hrun, ok_bind] at hnext
    rw [List.length_cons, applyFrom_next _ ((hk o (.refl h o)).trans hg.given) hes, hnext]
    exact hm

theorem override_of_leavesAlone (halone : LeavesAlone h root o es) :
    ∃ k, override h (.ref root) (.ref o) = .ok k ∧ Spares h o k := by
  obtain ⟨k, hrun, hall⟩ :=
    hg.applyFrom_of_leavesAlone halone (List.nil_append es).symm (k := h) rfl
  obtain ⟨k', hall', hk⟩ := halone es (List.prefix_refl es)
  obtain rfl := Except.ok.inj (hall.symm.trans hall')
  exact ⟨k, (override_eq _ hg.given).trans hrun, hk⟩

end Given

end Settings

end Promptbook
