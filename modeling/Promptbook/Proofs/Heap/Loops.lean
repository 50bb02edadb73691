import Mathlib.Data.List.Chain
import Mathlib.Data.List.Nodup
import Mathlib.Data.List.Perm.Subperm
import Mathlib.Logic.Relation
import Promptbook.Proofs.Heap.Compared
import Promptbook.Proofs.Heap.Ordinary

namespace Promptbook

open Relation

/-- A way along a relation on which nothing is met twice, except that it may end where it was. -/
structure Trail {α : Type} (next : α → α → Prop) (x : α) (path : List α) : Prop where
  chain : (x :: path).IsChain next
  nodup : (x :: path).dropLast.Nodup

namespace Trail

variable {α : Type} {next : α → α → Prop} {x y : α} {path : List α}

theorem nil (next : α → α → Prop) (x : α) : Trail next x [] :=
  ⟨.singleton x, List.nodup_nil⟩

theorem cons (hxy : next x y) (ht : Trail next y path) (hx : x ∉ (y :: path).dropLast) :
    Trail next x (y :: path) :=
  ⟨.cons_cons hxy ht.chain, List.nodup_cons.2 ⟨hx, ht.nodup⟩⟩

theorem mono {next' : α → α → Prop} (ht : Trail next x path)
    (hn : ∀ y z, next y z → next' y z) : Trail next' x path :=
  ⟨ht.chain.imp hn, ht.nodup⟩

theorem reaches (ht : Trail next x path) : ∀ z ∈ x :: path, ReflTransGen next x z := by
  have hchain := ht.chain
  clear ht
  induction path generalizing x with
  | nil =>
    intro z hz
    obtain rfl := List.mem_singleton.1 hz
    exact .refl
  | cons y path ih =>
    intro z hz
    cases hchain with
    | cons_cons hxy hrest =>
      rcases List.mem_cons.1 hz with rfl | hz
      · exact .refl
      · exact .head hxy (ih hrest z hz)

theorem exists_next (ht : Trail next x path) : ∀ z ∈ (x :: path).dropLast, ∃ w, next z w := by
  have hchain := ht.chain
  clear ht
  induction path generalizing x with
  | nil =>
    intro z hz
    cases hz
  | cons y path ih =>
    intro z hz
    cases hchain with
    | cons_cons hxy hrest =>
      rw [List.dropLast_cons_cons] at hz
      rcases List.mem_cons.1 hz with rfl | hz
      · exact ⟨y, hxy⟩
      · exact ih hrest z hz

end Trail

/-- A trail that goes through none of some containers, though it may end in one. -/
structure ClearTrail (next : Value → Value → Prop) (noted : List Ref) (v : Value)
    (path : List Value) : Prop extends Trail next v path where
  clear : ∀ r ∈ noted, .ref r ∉ (v :: path).dropLast

section ClearTrail

variable {next : Value → Value → Prop} {noted : List Ref} {v x : Value} {path : List Value}
  {r : Ref}

theorem clearTrail_nil (next : Value → Value → Prop) (noted : List Ref) (v : Value) :
    ClearTrail next noted v [] :=
  ⟨.nil next v, fun _ _ => List.not_mem_nil⟩

theorem clearTrail_iff_trail : ClearTrail next [] v path ↔ Trail next v path :=
  ⟨fun ht => ht.toTrail, fun ht => ⟨ht, List.forall_mem_nil _⟩⟩

theorem clearTrail_cons_iff : ClearTrail next noted (.ref r) (x :: path) ↔
    r ∉ noted ∧ next (.ref r) x ∧ ClearTrail next (r :: noted) x path := by
  constructor
  · intro ht
    have hnodup := ht.nodup
    rw [List.dropLast_cons_cons, List.nodup_cons] at hnodup
    have hclear := ht.clear
    simp only [List.dropLast_cons_cons, List.mem_cons, not_or] at hclear
    cases ht.chain with
    | cons_cons hrx hrest =>
      refine ⟨fun hr => (hclear r hr).1 rfl, hrx, ⟨hrest, hnodup.2⟩, ?_⟩
      exact List.forall_mem_cons.2 ⟨hnodup.1, fun q hq => (hclear q hq).2⟩
  · rintro ⟨hr, hrx, ht⟩
    obtain ⟨hself, hclear⟩ := List.forall_mem_cons.1 ht.clear
    refine ⟨ht.toTrail.cons hrx hself, fun q hq hmem => ?_⟩
    rw [List.dropLast_cons_cons] at hmem
    rcases List.mem_cons.1 hmem with heq | hmem
    · exact hr (Value.ref.inj heq ▸ hq)
    · exact hclear q hq hmem

end ClearTrail

namespace Heap

variable {h : Heap} {v w x : Value} {r : Ref} {xs : List Value} {n : Nat} {noted : List Ref}
  {stand : Value → Except Fault Json}

/-- A value lies directly inside another: it is an item of a list or tuple, or a value of a
mapping. -/
def Child (h : Heap) (v x : Value) : Prop :=
  ∃ xs, h.inside? v = some (.ok xs) ∧ x ∈ xs

/-- Some container inside a value, or the value itself, contains itself. -/
def Loops (h : Heap) (v : Value) : Prop :=
  ∃ c, ReflTransGen h.Child v c ∧ TransGen h.Child c c

def LeadsTo (h : Heap) (v : Value) (r : Ref) : Prop :=
  (h.inside? (.ref r)).isSome ∧ ReflTransGen h.Child v (.ref r)

/-- The contents of every container inside a value can be read. -/
def Readable (h : Heap) (v : Value) : Prop :=
  ∀ w, ReflTransGen h.Child v w → ∀ cause, h.inside? w ≠ some (.error cause)

/-- Every trail through the contents of a value is shorter than a limit. -/
def TrailsWithin (h : Heap) (n : Nat) (v : Value) : Prop :=
  ∀ path, Trail h.Child v path → path.length < n

theorem exists_ref_of_inside? {children : Except Fault (List Value)}
    (hi : h.inside? v = some children) : ∃ r, v = .ref r := by
  cases hn : h.node? v with
  | none =>
    rw [inside?, hn] at hi
    cases hi
  | some node =>
    obtain ⟨r, hr, -⟩ := exists_of_node? hn
    exact ⟨r, hr⟩

theorem Child.exists_ref (hx : h.Child v x) :
    ∃ r, v = .ref r ∧ r.index < h.nodes.size ∧ (h.inside? (.ref r)).isSome := by
  obtain ⟨xs, hi, -⟩ := hx
  obtain ⟨r, rfl⟩ := exists_ref_of_inside? hi
  have hn : (h.node? (.ref r)).isSome := by
    cases hr : h.node? (.ref r) with
    | none =>
      rw [inside?, hr] at hi
      cases hi
    | some node => rfl
  obtain ⟨node, hr⟩ := Option.isSome_iff_exists.1 hn
  exact ⟨r, rfl, (Array.getElem?_eq_some_iff.1 hr).1, by rw [hi]; rfl⟩

theorem Readable.child (hr : h.Readable v) (hx : h.Child v x) : h.Readable x :=
  fun w hw => hr w (.head hx hw)

theorem Readable.exists_children (hr : h.Readable v) :
    h.inside? v = none ∨ ∃ r xs, v = .ref r ∧ h.inside? (.ref r) = some (.ok xs) := by
  cases hi : h.inside? v with
  | none => exact .inl rfl
  | some children =>
    obtain ⟨r, rfl⟩ := exists_ref_of_inside? hi
    cases children with
    | error cause => exact (hr _ .refl cause hi).elim
    | ok xs => exact .inr ⟨r, xs, rfl, hi⟩

theorem SealFree.readable (hf : h.SealFree) (v : Value) : h.Readable v := by
  intro w _ cause hi
  rw [inside?] at hi
  split at hi
  · cases hi
  · cases hi
  · cases hi
  · next ks message hn =>
    obtain ⟨r, -, hr⟩ := exists_of_node? hn
    exact hf r ks message hr
  · cases hi

/-- A trail meets each container of the heap at most once before its end. -/
theorem length_le_of_trail {path : List Value} (ht : Trail h.Child v path) :
    path.length ≤ h.nodes.size := by
  let index : Value → Nat := fun x => (x.asRef?.getD ⟨0⟩).index
  have hlt : ∀ x ∈ (v :: path).dropLast, ∃ r : Ref, x = .ref r ∧ r.index < h.nodes.size := by
    intro x hx
    obtain ⟨w, hw⟩ := ht.exists_next x hx
    obtain ⟨r, hr, hlt, -⟩ := hw.exists_ref
    exact ⟨r, hr, hlt⟩
  have hnodup : ((v :: path).dropLast.map index).Nodup := by
    refine List.Nodup.map_on (fun x hx y hy hxy => ?_) ht.nodup
    obtain ⟨⟨i⟩, rfl, -⟩ := hlt x hx
    obtain ⟨⟨j⟩, rfl, -⟩ := hlt y hy
    exact congrArg (fun i => Value.ref ⟨i⟩) hxy
  have hsub : (v :: path).dropLast.map index ⊆ List.range h.nodes.size := by
    intro i hi
    obtain ⟨x, hx, rfl⟩ := List.mem_map.1 hi
    obtain ⟨r, rfl, hr⟩ := hlt x hx
    exact List.mem_range.2 hr
  have hle := (List.Nodup.subperm hnodup hsub).length_le
  rw [List.length_map, List.length_dropLast, List.length_range] at hle
  exact hle

theorem trailsWithin_of_size_lt (hn : h.nodes.size < n) (v : Value) : h.TrailsWithin n v :=
  fun _ ht => Nat.lt_of_le_of_lt (length_le_of_trail ht) hn

theorem hasCycleWithin_returns (hr : h.Readable v)
    (ht : ∀ path, ClearTrail h.Child noted v path → path.length < n) :
    ∃ found, h.hasCycleWithin n noted v = .ok found := by
  induction n generalizing noted v with
  | zero => exact (Nat.not_lt_zero _ (ht [] (clearTrail_nil _ _ _))).elim
  | succ n ih =>
    obtain hi | ⟨r, xs, rfl, hi⟩ := hr.exists_children
    · exact ⟨false, by rw [hasCycleWithin, hi]; cases v.asRef? <;> rfl⟩
    · simp only [hasCycleWithin, Value.asRef?, hi, ok_bind]
      by_cases hin : r ∈ noted
      · exact ⟨true, if_pos hin⟩
      rw [if_neg hin]
      apply anyOk_total
      intro x hx
      have hchild : h.Child (.ref r) x := ⟨xs, hi, hx⟩
      apply ih (hr.child hchild)
      intro path hpath
      exact Nat.lt_of_succ_lt_succ (ht (x :: path) (clearTrail_cons_iff.2 ⟨hin, hchild, hpath⟩))

/-- Where the search finds something, the value leads to a noted container or loops. -/
theorem found_of_hasCycleWithin (hf : h.hasCycleWithin n noted v = .ok true) :
    h.Loops v ∨ ∃ r ∈ noted, h.LeadsTo v r := by
  induction n generalizing noted v with
  | zero => cases hf
  | succ n ih =>
    rw [hasCycleWithin] at hf
    split at hf
    · next r children hv hi =>
      obtain rfl := Value.asRef?_eq_some.1 hv
      split at hf
      · next hin => exact .inr ⟨r, hin, by rw [hi]; rfl, .refl⟩
      · cases children with
        | error cause => cases hf
        | ok xs =>
          obtain ⟨x, hx, hfx⟩ := exists_of_anyOk hf
          have hchild : h.Child (.ref r) x := ⟨xs, hi, hx⟩
          obtain ⟨c, hc, hloop⟩ | ⟨q, hq, hcont, hlead⟩ := ih hfx
          · exact .inl ⟨c, .head hchild hc, hloop⟩
          · rcases List.mem_cons.1 hq with rfl | hq
            · exact .inl ⟨.ref q, .refl, .head' hchild hlead⟩
            · exact .inr ⟨q, hq, hcont, .head hchild hlead⟩
    · cases hf

theorem not_found_of_hasCycleWithin (hf : h.hasCycleWithin n noted v = .ok false) :
    ¬ h.Loops v ∧ ∀ r ∈ noted, ¬ h.LeadsTo v r := by
  induction n generalizing noted v with
  | zero => cases hf
  | succ n ih =>
    have hchild {x : Value} (hx : h.Child v x) :
        ∃ r, v = .ref r ∧ r ∉ noted ∧ h.hasCycleWithin n (r :: noted) x = .ok false := by
      obtain ⟨xs, hi, hx⟩ := hx
      obtain ⟨r, rfl⟩ := exists_ref_of_inside? hi
      obtain ⟨hin, hxs⟩ := hasCycleWithin_eq_false hi hf
      exact ⟨r, rfl, hin, hxs x hx⟩
    constructor
    · rintro ⟨c, hc, hloop⟩
      rcases hc.cases_head with rfl | ⟨x, hx, hxc⟩
      · -- the value itself is met again inside one of its children, where it is noted
        obtain ⟨x, hx, hback⟩ := TransGen.head'_iff.1 hloop
        obtain ⟨r, rfl, -, hfx⟩ := hchild hx
        obtain ⟨r', heq, -, hcont⟩ := hx.exists_ref
        cases heq
        exact (ih hfx).2 r List.mem_cons_self ⟨hcont, hback⟩
      · obtain ⟨r, rfl, -, hfx⟩ := hchild hx
        exact (ih hfx).1 ⟨c, hxc, hloop⟩
    · rintro q hq ⟨hcont, hlead⟩
      rcases hlead.cases_head with rfl | ⟨x, hx, hxq⟩
      · simp only [hasCycleWithin, Value.asRef?] at hf
        obtain ⟨children, hi⟩ := Option.isSome_iff_exists.1 hcont
        simp only [hi, if_pos hq] at hf
        cases hf
      · obtain ⟨r, rfl, -, hfx⟩ := hchild hx
        exact (ih hfx).2 q (List.mem_cons_of_mem r hq) ⟨hcont, hxq⟩

theorem searchWithin_returns (hr : h.Readable v) (ht : h.TrailsWithin n v) (noted : List Ref) :
    ∃ found, h.searchWithin n v noted = (.ok found, noted) ∧
      (found = true ↔ h.Loops v ∨ ∃ r ∈ noted, h.LeadsTo v r) := by
  obtain ⟨found, hf⟩ : ∃ found, h.hasCycleWithin n noted v = .ok found :=
    hasCycleWithin_returns hr fun path hpath => ht path hpath.toTrail
  refine ⟨found, by rw [searchWithin_eq, hf], ?_⟩
  cases found with
  | true => exact iff_of_true rfl (found_of_hasCycleWithin hf)
  | false =>
    obtain ⟨hloops, hleads⟩ := not_found_of_hasCycleWithin hf
    refine iff_of_false Bool.false_ne_true ?_
    rintro (hl | ⟨r, hr, hl⟩)
    · exact hloops hl
    · exact hleads r hr hl

theorem hasCycleWithin_of_not_loops (hr : h.Readable v) (hl : ¬ h.Loops v)
    (ht : h.TrailsWithin n v) : h.hasCycleWithin n [] v = .ok false := by
  obtain ⟨found, hf⟩ : ∃ found, h.hasCycleWithin n [] v = .ok found :=
    hasCycleWithin_returns hr fun path hpath => ht path hpath.toTrail
  cases found with
  | true =>
    rcases found_of_hasCycleWithin hf with hloops | ⟨r, hr, -⟩
    · exact (hl hloops).elim
    · cases hr
  | false => exact hf

theorem loops_of_leadsTo (hv : TransGen h.Child (.ref r) v) (hl : h.LeadsTo v r) : h.Loops v :=
  ⟨.ref r, hl.2, hv.trans_left hl.2⟩

theorem hasCycle_returns (hr : h.Readable v) (ht : h.TrailsWithin h.depths.search v) :
    ∃ found, h.hasCycle v = .ok found ∧ (found = true ↔ h.Loops v) := by
  obtain ⟨found, hs, hiff⟩ := searchWithin_returns hr ht []
  refine ⟨found, congrArg Prod.fst hs, hiff.trans ⟨?_, .inl⟩⟩
  rintro (hl | ⟨r, hr, -⟩)
  · exact hl
  · cases hr

section Circular

theorem ok_ne_circular {α : Type} (a : α) : (.ok a : Except Fault α) ≠ .error .circular := by
  intro he
  cases he

theorem integerText_ne_circular (i : Int) : integerText i ≠ .error .circular := by
  rw [integerText]
  split
  · exact ok_ne_circular _
  · exact fun he => by cases he

theorem quoteLeaf_ne_circular (v : Value) : v.quoteLeaf ≠ .error .circular := by
  cases v with
  | int i => exact integerText_ne_circular i
  | foreign o =>
    obtain ⟨label, face, -, -⟩ := o
    cases face with
    | gives text => exact ok_ne_circular _
    | refuses message => exact fun he => by cases he
  | _ => exact ok_ne_circular _

theorem bind_ne_circular {α β : Type} {x : Except Fault α} {f : α → Except Fault β}
    (hx : x ≠ .error .circular) (hf : ∀ a, f a ≠ .error .circular) :
    (x >>= f) ≠ .error .circular := by
  cases x with
  | error cause => exact fun he => hx (by cases he; rfl)
  | ok a => exact hf a

theorem eachOk_ne_circular {α β : Type} {f : α → Except Fault β} {xs : List α}
    (hf : ∀ x ∈ xs, f x ≠ .error .circular) : eachOk f xs ≠ .error .circular := by
  intro he
  obtain ⟨x, hx, hfx⟩ := eachOk_error he
  exact hf x hx hfx

theorem quoteWithin_leaf (active : List Ref) (hv : v.asRef? = none) :
    h.quoteWithin (n + 1) active v = v.quoteLeaf := by
  cases v with
  | ref r => cases hv
  | _ => rfl

theorem quoteWithin_ne_circular (active : List Ref) (v : Value) :
    h.quoteWithin n active v ≠ .error .circular := by
  induction n generalizing active v with
  | zero => exact fun he => by cases he
  | succ n ih =>
    cases hv : v.asRef? with
    | none =>
      rw [quoteWithin_leaf active hv]
      exact quoteLeaf_ne_circular v
    | some r =>
      obtain rfl := Value.asRef?_eq_some.1 hv
      have hall (xs : List Value) : eachOk (h.quoteWithin n (r :: active)) xs ≠ .error .circular :=
        eachOk_ne_circular fun x _ => ih _ x
      simp only [quoteWithin]
      split
      · exact quoteLeaf_ne_circular _
      · split
        · exact ok_ne_circular _
        · split
          · exact bind_ne_circular (hall _) fun _ => ok_ne_circular _
          · exact bind_ne_circular (ih _ _) fun _ => ok_ne_circular _
          · exact bind_ne_circular (hall _) fun _ => ok_ne_circular _
          · exact ok_ne_circular _
          · exact bind_ne_circular (hall _) fun _ => ok_ne_circular _
          · refine bind_ne_circular (eachOk_ne_circular fun e _ => ?_) fun _ => ok_ne_circular _
            exact bind_ne_circular (ih _ _) fun _ => bind_ne_circular (ih _ _) fun _ => ok_ne_circular _
          · exact ok_ne_circular _

theorem standInNull_ne_circular (v : Value) : h.standInNull v ≠ .error .circular := by
  have htext : h.text v ≠ .error .circular := by
    cases v with
    | ref r => exact quoteWithin_ne_circular [] (.ref r)
    | int i => exact quoteLeaf_ne_circular (.int i)
    | foreign o => exact quoteLeaf_ne_circular (.foreign o)
    | _ => exact ok_ne_circular _
  have hmap : (h.text v).map Json.text ≠ .error .circular := by
    cases ht : h.text v with
    | error cause =>
      intro he
      cases he
      exact htext ht
    | ok t => exact ok_ne_circular _
  cases v with
  | undefined => exact ok_ne_circular _
  | _ => exact hmap

theorem memberName_ne_circular (key : Value) : h.memberName key ≠ .error .circular := by
  cases key with
  | int i => exact integerText_ne_circular i
  | _ => exact fun he => by cases he

theorem leafJson?_ne_circular (v : Value) : leafJson? v ≠ some (.error .circular) := by
  cases v with
  | int i =>
    rw [leafJson?]
    cases hi : integerText i with
    | error cause =>
      intro he
      cases he
      exact integerText_ne_circular i hi
    | ok t => exact fun he => by cases he
  | _ => exact fun he => by cases he

/-- Where the search found nothing, the document is not refused for a container inside itself,
whatever the depth at which writing it is given up. -/
theorem toJsonWithin_ne_circular (hstand : ∀ w, stand w ≠ .error .circular)
    (hf : h.hasCycleWithin n noted v = .ok false) (m : Nat) :
    h.toJsonWithin stand m noted v ≠ .error .circular := by
  induction m generalizing n noted v with
  | zero =>
    intro he
    cases he
  | succ m ih =>
    rcases n with _ | n
    · cases hf
    rw [toJsonWithin]
    split
    · next result hl => exact fun he => leafJson?_ne_circular v (he ▸ hl)
    · split
      · next r xs hv hn =>
        obtain rfl := Value.asRef?_eq_some.1 hv
        obtain ⟨hin, hxs⟩ := hasCycleWithin_eq_false (by rw [inside?, hn]) hf
        rw [if_neg hin]
        exact bind_ne_circular (eachOk_ne_circular fun x hx => ih (hxs x hx)) fun _ => ok_ne_circular _
      · next r xs hv hn =>
        obtain rfl := Value.asRef?_eq_some.1 hv
        obtain ⟨hin, hxs⟩ := hasCycleWithin_eq_false (by rw [inside?, hn]) hf
        rw [if_neg hin]
        exact bind_ne_circular (eachOk_ne_circular fun x hx => ih (hxs x hx)) fun _ => ok_ne_circular _
      · next r es hv hn =>
        obtain rfl := Value.asRef?_eq_some.1 hv
        obtain ⟨hin, hxs⟩ := hasCycleWithin_eq_false (by rw [inside?, hn]) hf
        rw [if_neg hin]
        refine bind_ne_circular (eachOk_ne_circular fun e he => ?_) fun _ => ok_ne_circular _
        refine bind_ne_circular (memberName_ne_circular e.1) fun _ => ?_
        exact bind_ne_circular (ih (hxs e.2 (List.mem_map_of_mem he))) fun _ => ok_ne_circular _
      · exact hstand v

end Circular

section Marked

theorem print_list_ne_mark (js : List Json) : (Json.list js).print ≠ cycleMarker := by
  intro he
  have hchars : Json.render 0 (.list js) = cycleMarker.toList := by
    rw [← he, Json.print, String.toList_ofList]
  cases js with
  | nil =>
    rw [Json.render] at hchars
    cases hchars
  | cons j js =>
    rw [Json.render, Json.newLine] at hchars
    cases hchars

theorem print_object_ne_mark (ms : List (String × Json)) :
    (Json.object ms).print ≠ cycleMarker := by
  intro he
  have hchars : Json.render 0 (.object ms) = cycleMarker.toList := by
    rw [← he, Json.print, String.toList_ofList]
  cases ms with
  | nil =>
    rw [Json.render] at hchars
    cases hchars
  | cons m ms =>
    rw [Json.render] at hchars
    cases hchars

theorem print_text_ne_mark (s : String) : (Json.text s).print ≠ cycleMarker := by
  intro he
  have hchars : Json.render 0 (.text s) = cycleMarker.toList := by
    rw [← he, Json.print, String.toList_ofList]
  rw [Json.render, Json.encodeString] at hchars
  cases hchars

theorem print_ne_mark {j : Json} (hj : h.toJson h.standInNull (.ref r) = .ok j) :
    j.print ≠ cycleMarker := by
  obtain ⟨n, hn⟩ := Nat.exists_eq_add_of_le' h.depths.two_le_encode
  simp only [toJson, hn, toJsonWithin, leafJson?, Value.asText?_ref, Option.map_none,
    Value.asRef?, List.not_mem_nil, if_false] at hj
  split at hj
  · obtain ⟨js, -, hjs⟩ := bind_eq_ok.1 hj
    cases hjs
    exact print_list_ne_mark js
  · obtain ⟨js, -, hjs⟩ := bind_eq_ok.1 hj
    cases hjs
    exact print_list_ne_mark js
  · obtain ⟨ms, -, hms⟩ := bind_eq_ok.1 hj
    cases hms
    exact print_object_ne_mark ms
  · obtain ⟨s, -, rfl⟩ := map_eq_ok.1 hj
    exact print_text_ne_mark s

theorem render_container (hi : (h.inside? v).isSome) : h.render v = do
    if ← h.hasCycle v then return cycleMarker
    return (← h.toJson h.standInNull v).print := by
  obtain ⟨children, hi⟩ := Option.isSome_iff_exists.1 hi
  obtain ⟨r, rfl⟩ := exists_ref_of_inside? hi
  simp only [render, Value.asText?_ref, hi]

theorem render_of_loops (hi : (h.inside? v).isSome) (hc : h.hasCycle v = .ok true) :
    h.render v = .ok cycleMarker := by
  rw [render_container hi, hc]
  rfl

theorem render_of_not_loops (hi : (h.inside? v).isSome) (hc : h.hasCycle v = .ok false) :
    h.render v = (h.toJson h.standInNull v).map Json.print := by
  rw [render_container hi, hc]
  cases h.toJson h.standInNull v with
  | error cause => rfl
  | ok j => rfl

end Marked

/-- Of a value whose contents can be read and lie below the limit: the search ends, leaves the set
of containers as it was, and finds something if and only if a container inside the value contains
itself or is in the set; where the set holds only containers around the value, the latter comes to
the former. A container is rendered by the mark if and only if there is such a loop; otherwise by
its document, and writing that never comes to a container inside itself. -/
theorem searchWithin_and_render (hr : h.Readable v) (ht : h.TrailsWithin h.depths.search v) :
    (∀ noted, ∃ found, h.searchWithin h.depths.search v noted = (.ok found, noted) ∧
      (found = true ↔ h.Loops v ∨ ∃ r ∈ noted, h.LeadsTo v r) ∧
      ((∀ r ∈ noted, TransGen h.Child (.ref r) v) → (found = true ↔ h.Loops v))) ∧
    ((h.inside? v).isSome →
      (h.render v = .ok cycleMarker ↔ h.Loops v) ∧
      (¬ h.Loops v → h.render v = (h.toJson h.standInNull v).map Json.print ∧
        h.toJson h.standInNull v ≠ .error .circular)) := by
  constructor
  · intro noted
    obtain ⟨found, hs, hiff⟩ := searchWithin_returns hr ht noted
    refine ⟨found, hs, hiff, fun haround => hiff.trans ⟨?_, .inl⟩⟩
    rintro (hl | ⟨r, hr, hl⟩)
    · exact hl
    · exact loops_of_leadsTo (haround r hr) hl
  · intro hi
    obtain ⟨found, hc, hiff⟩ := hasCycle_returns hr ht
    cases found with
    | true =>
      have hl := hiff.1 rfl
      exact ⟨iff_of_true (render_of_loops hi hc) hl, fun hno => (hno hl).elim⟩
    | false =>
      have hl : ¬ h.Loops v := fun hl => Bool.false_ne_true (hiff.2 hl)
      have hrender := render_of_not_loops hi hc
      refine ⟨iff_of_false ?_ hl, fun _ => ⟨hrender, ?_⟩⟩
      · rw [hrender, map_eq_ok]
        rintro ⟨j, hj, hprint⟩
        obtain ⟨children, hi⟩ := Option.isSome_iff_exists.1 hi
        obtain ⟨r, rfl⟩ := exists_ref_of_inside? hi
        exact print_ne_mark hj hprint
      · rw [hasCycle_eq_within] at hc
        exact toJsonWithin_ne_circular standInNull_ne_circular hc _

/-- A dictionary with one list under two names and, deeper, a tuple that leads back to it. -/
def knotted : Heap where
  nodes := #[.dict [(.text "a", .ref ⟨1⟩), (.text "b", .ref ⟨1⟩), (.text "c", .ref ⟨2⟩)],
    .list [.int 1], .tuple [.text "x", .ref ⟨0⟩], .list [.ref ⟨1⟩, .ref ⟨1⟩]]

theorem searchWithin_knotted :
    knotted.render (.ref ⟨0⟩) = .ok cycleMarker ∧
      knotted.searchWithin knotted.depths.search (.ref ⟨2⟩) [⟨0⟩] = (.ok true, [⟨0⟩]) ∧
      ¬ knotted.Loops (.ref ⟨3⟩) ∧
      knotted.toJson knotted.standInNull (.ref ⟨3⟩) ≠ .error .circular := by
  have hfree : knotted.SealFree := by
    rintro ⟨i⟩ ks message hr
    rcases i with _ | _ | _ | _ | i
    all_goals cases hr
  have hbelow (v : Value) : knotted.TrailsWithin knotted.depths.search v :=
    trailsWithin_of_size_lt (by decide) v
  have hup : TransGen knotted.Child (.ref ⟨0⟩) (.ref ⟨2⟩) :=
    .single ⟨_, rfl, by decide⟩
  have hdown : TransGen knotted.Child (.ref ⟨2⟩) (.ref ⟨0⟩) :=
    .single ⟨_, rfl, by decide⟩
  obtain ⟨-, hrender⟩ := searchWithin_and_render (hfree.readable (.ref ⟨0⟩)) (hbelow _)
  obtain ⟨hsearch, -⟩ := searchWithin_and_render (hfree.readable (.ref ⟨2⟩)) (hbelow _)
  obtain ⟨hshared, hwritten⟩ := searchWithin_and_render (hfree.readable (.ref ⟨3⟩)) (hbelow _)
  have hnone : ¬ knotted.Loops (.ref ⟨3⟩) := by
    obtain ⟨found, hs, -, hiff⟩ := hshared []
    have hfound : knotted.searchWithin knotted.depths.search (.ref ⟨3⟩) [] = (.ok false, []) := rfl
    cases hs.symm.trans hfound
    exact fun hl => Bool.false_ne_true ((hiff fun _ hr => by cases hr).2 hl)
  refine ⟨(hrender rfl).1.2 ⟨_, .refl, hup.trans hdown⟩, ?_, hnone, ((hwritten rfl).2 hnone).2⟩
  obtain ⟨found, hs, -, hiff⟩ := hsearch [⟨0⟩]
  have haround : ∀ r ∈ [(⟨0⟩ : Ref)], TransGen knotted.Child (.ref r) (.ref ⟨2⟩) := by
    intro r hr
    cases List.mem_singleton.1 hr
    exact hup
  obtain rfl := (hiff haround).2 ⟨_, .refl, hdown.trans hup⟩
  exact hs

end Heap

end Promptbook
