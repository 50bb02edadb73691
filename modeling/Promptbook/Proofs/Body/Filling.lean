import Promptbook.Proofs.Body.Entries
import Promptbook.Proofs.Heap.Nested

namespace Promptbook

namespace Body

variable {h : Heap} {body : Value} {verdict : Verdict}

theorem dict_of_check (hc : check h body = .ok verdict) (ha : verdict.accepts = true) :
    ∃ b es, body = .ref b ∧ h.get? b = some (.dict es) := by
  simp only [check] at hc
  split at hc
  · rename_i m hm _
    cases m with
    | sealed ks msg =>
      simp only [Mapping.field, Mapping.get, Except.map, bind, Except.bind, reduceCtorEq] at hc
    | entries es =>
      simp only [Heap.mapping?] at hm
      split at hm
      · rename_i es' hn
        obtain ⟨b, rfl, hb⟩ := Heap.exists_of_node? hn
        exact ⟨b, es', rfl, hb⟩
      · cases hm
      · cases hm
  · obtain ⟨-, -, hc⟩ := bind_eq_ok.1 hc
    cases hc
    cases ha

end Body

/-- A numbered entry of a body under another key than that of the list of variables. -/
def Heap.IsFilledEntry (h : Heap) (b : Ref) (i : Nat) : Prop :=
  ∃ es e, h.get? b = some (.dict es) ∧ es[i]? = some e ∧ e.1.asText? ≠ some "variables"

namespace Walk

variable {h : Heap} {b : Ref} {es : List (Value × Value)} {i : Nat}

theorem entryIndices_eq (hb : h.get? b = some (.dict es)) :
    entryIndices h b = (List.range es.length).filter fun i =>
      (es[i]?.bind fun e => e.1.asText?) ≠ some "variables" := by
  rw [entryIndices, hb]

theorem mem_entryIndices : i ∈ entryIndices h b ↔ h.IsFilledEntry b i := by
  constructor
  · intro hi
    rw [entryIndices] at hi
    split at hi
    · next es hb =>
      obtain ⟨hlt, hkey⟩ := List.mem_filter.1 hi
      have hlt := List.mem_range.1 hlt
      have he : es[i]? = some es[i] := List.getElem?_eq_getElem hlt
      rw [he] at hkey
      exact ⟨es, _, hb, he, of_decide_eq_true hkey⟩
    · cases hi
  · rintro ⟨es, e, hb, he, hkey⟩
    rw [entryIndices_eq hb, List.mem_filter, List.mem_range, he]
    exact ⟨(List.getElem?_eq_some_iff.1 he).1, decide_eq_true hkey⟩

theorem nodup_entryIndices (h : Heap) (b : Ref) : (entryIndices h b).Nodup := by
  rw [entryIndices]
  split
  · exact List.nodup_range.filter _
  · exact List.nodup_nil

theorem slot?_of_mem_entryIndices (hb : h.get? b = some (.dict es))
    (hi : i ∈ entryIndices h b) : ∃ x, (Node.dict es).slot? i = some x := by
  rw [entryIndices_eq hb, List.mem_filter, List.mem_range] at hi
  exact ⟨_, congrArg (Option.map _) (List.getElem?_eq_getElem hi.1)⟩

end Walk

namespace Heap

variable {h k : Heap} {m : Ref → Ref} {values v w x : Value} {b r q : Ref} {root node : Node}
  {i : Nat} {is : List Nat} {s : String}

theorem Reaches.of_enters (hb : h.get? b = some root) (hx : x ∈ root.slots) (hr : h.Enters x r) :
    h.Reaches (.ref b) r := by
  obtain ⟨i, hi⟩ := Node.mem_slots.1 hx
  exact (hr.head hb hi).reaches

namespace IsCopy

variable (hcopy : IsCopy h k m v w)
include hcopy

theorem open?_eq (hn : h.get? r = some node) (hr : h.Reaches v r) :
    k.open? (m r) = (h.open? r).map (Node.map m) := by
  rw [open?, hcopy.node r node hr hn, open?, hn]
  cases ho : node.isOpen <;> simp [Option.filter, ho]

theorem mirrors (hc : h.Closed) (hv : h.Holds v) : h.Mirrors k m (h.Reaches v) := by
  refine ⟨hcopy.injective, fun r hr hn => ?_, fun r node hr hn => ?_⟩
  · obtain ⟨node, hnode⟩ := hc.reached hv hr
    rw [hcopy.open?_eq hnode hr, hn]
    rfl
  · have hnode := (open?_eq_some.1 hn).1
    refine ⟨node.map m, by rw [hcopy.open?_eq hnode hr, hn]; rfl, ?_⟩
    rw [Node.slots_map, List.forall₂_map_right_iff, List.forall₂_same]
    intro y hy
    refine ⟨Value.asRef?_map m y, ?_⟩
    intro q heq
    subst heq
    obtain ⟨i, hi⟩ := Node.mem_slots.1 hy
    exact hr.trans (Enters.head hnode hi (.refl h q)).reaches

theorem alike : Heap.Alike m (h.Reaches v) v w := by
  refine ⟨by rw [hcopy.value, Value.asRef?_map], ?_⟩
  intro q heq
  subst heq
  exact .refl h q

theorem fresh_entered (hc : h.Closed) (hv : h.Holds v) : h.Fresh k w := by
  intro t node ht hn
  have hm := hcopy.mirrors hc hv
  obtain ⟨r, rfl, hr⟩ := hm.enters_image hcopy.alike ht
  cases ho : h.open? r with
  | none =>
    rw [hm.shut r hr.reaches ho] at hn
    cases hn
  | some old =>
    obtain ⟨hold, hopen⟩ := Heap.open?_eq_some.1 ho
    exact hcopy.fresh r old hr.reaches hold hopen

theorem same_texts : h.SameTexts k m (h.Reaches v) := by
  intro r node node' hr hn hn'
  have hnode := (open?_eq_some.1 hn).1
  rw [hcopy.open?_eq hnode hr, hn, Option.map_some, Option.some.injEq] at hn'
  subst hn'
  rw [Node.slots_map, List.map_map]
  exact List.map_congr_left fun y _ => Value.asText?_map m y

end IsCopy

theorem Nested.shallow {n : Nat} {entered : List Ref} (hn : h.Nested n entered v) :
    h.Shallow n entered v := by
  induction n generalizing entered v with
  | zero => exact hn.elim
  | succ n ih =>
    rintro r node rfl hr ho x hx
    obtain ⟨hnode, hopen⟩ := open?_eq_some.1 ho
    have htuple : node.isTuple = false := by
      cases node <;> first | rfl | cases hopen
    obtain ⟨i, hi⟩ := Node.mem_slots.1 hx
    have hx := hn r node rfl hr hnode x (Node.mem_elements.2 ⟨.slot i, hi⟩)
    rw [htuple] at hx
    exact ih hx

theorem Nested.shallow_slots {n : Nat} (hn : h.Nested n [] (.ref b)) (hb : h.open? b = some root)
    (ha : ∀ x ∈ root.slots, ¬ h.Enters x b) : ∀ x ∈ root.slots, h.Shallow n [] x := by
  intro x hx
  cases n with
  | zero => exact hn.elim
  | succ n =>
    refine Shallow.succ (Shallow.forget (hn.shallow b root rfl List.not_mem_nil hb x hx) ?_)
    intro q hq hxq
    obtain rfl := List.mem_singleton.1 hq
    exact absurd hxq (ha x hx)

/-- What a walk from the places of a body makes of a place of a container that the body reaches. -/
noncomputable def refill (h : Heap) (values : Value) (b r : Ref) (i : Nat) (v : Value) : Value :=
  if r = b then if i ∈ Walk.entryIndices h b then v.fill (h.filled values) else v
  else (Value.fill (h.filled values))^[h.timesEntered b (Walk.entryIndices h b) r] v

def filledEntries (h : Heap) (b : Ref) : List Value :=
  (Walk.entryIndices h b).filterMap fun i => (h.get? b).bind (·.slot? i)

/-- The paths of the placeholders that walks through the entries of a body meet, each with nothing
seen. -/
def metPaths (h : Heap) (b : Ref) : List String :=
  (h.filledEntries b).flatMap fun x => (h.tour [] [x]).flatMap placeholderPaths

/-- A body of a heap stands filled in another: `m` leads each container that the body reaches to
its filled copy. -/
structure IsFilling (h : Heap) (values : Value) (b : Ref) (k : Heap) (m : Ref → Ref) : Prop where
  keeps : h.Extends k
  closed : k.Closed
  node : ∀ r node, h.Reaches (.ref b) r → h.get? r = some node →
    k.get? (m r) = some ((node.map m).mapSlots (h.refill values b r))
  injective : ∀ r q, h.Reaches (.ref b) r → h.Reaches (.ref b) q → m r = m q → r = q
  fresh : ∀ r node, h.Reaches (.ref b) r → h.get? r = some node → node.isOpen = true →
    h.get? (m r) = none

end Heap

namespace Walk

structure Ready (h : Heap) (values : Value) (b : Ref) (es : List (Value × Value)) : Prop where
  closed : h.Closed
  holds : h.Holds values
  here : h.get? b = some (.dict es)
  apart : ∀ x ∈ (Node.dict es).slots, ¬ h.Enters x b

variable {h k : Heap} {values x : Value} {b r : Ref} {es : List (Value × Value)} {i : Nat}
  {m : Ref → Ref} {is : List Nat} {s : String}

namespace Ready

variable (hr : Ready h values b es) (hcopy : h.IsCopy k m (.ref b) (.ref (m b)))
include hr

theorem holds_body : h.Holds (.ref b) := by
  intro _ heq
  cases heq
  exact ⟨_, hr.here⟩

theorem alike (hx : x ∈ (Node.dict es).slots) :
    Heap.Alike m (h.Reaches (.ref b)) x (x.map m) := by
  refine ⟨Value.asRef?_map m x, ?_⟩
  intro q heq
  subst heq
  exact .of_enters hr.here hx (.refl h q)

include hcopy

theorem mirrors : h.Mirrors k m (h.Reaches (.ref b)) :=
  hcopy.mirrors hr.closed hr.holds_body

theorem get?_copy : k.get? (m b) = some ((Node.dict es).map m) :=
  hcopy.node b _ (.refl h b) hr.here

theorem stage : Stage h values k (m b) ((Node.dict es).map m) := by
  have hm := hr.mirrors hcopy
  have hfresh := hcopy.fresh_entered hr.closed hr.holds_body
  refine ⟨hr.closed, hr.holds, hr.get?_copy hcopy, hcopy.fresh b _ (.refl h b) hr.here rfl, ?_, ?_⟩
  · exact fun y hy => hfresh.slot (hr.get?_copy hcopy) hy
  · rw [Node.slots_map, List.forall_mem_map]
    intro x hx ht
    obtain ⟨r, he, hxr⟩ := hm.enters_image (hr.alike hx) ht
    have hreach := Heap.Reaches.of_enters hr.here hx hxr
    obtain rfl := hcopy.injective b r (.refl h b) hreach he
    exact hr.apart x hx hxr

theorem entersBy_iff (hreach : h.Reaches (.ref b) r) :
    k.EntersBy (m b) i (m r) ↔ h.EntersBy b i r := by
  have hm := hr.mirrors hcopy
  cases hx : (Node.dict es).slot? i with
  | none =>
    constructor
    · rintro ⟨is, hi⟩
      obtain ⟨q, node, u, ⟨⟩, hq, hu, _⟩ := Heap.follow_cons_eq_some.1 hi
      obtain rfl := Option.some.inj ((hr.get?_copy hcopy).symm.trans hq)
      rw [Node.step?, Node.slot?_map, hx] at hu
      cases hu
    · rintro ⟨is, hi⟩
      obtain ⟨q, node, u, ⟨⟩, hq, hu, _⟩ := Heap.follow_cons_eq_some.1 hi
      obtain rfl := Option.some.inj (hr.here.symm.trans hq)
      rw [Node.step?, hx] at hu
      cases hu
  | some x =>
    have hmem : x ∈ (Node.dict es).slots := Node.mem_slots.2 ⟨i, hx⟩
    have hx' : ((Node.dict es).map m).slot? i = some (x.map m) := by rw [Node.slot?_map, hx]; rfl
    rw [Heap.entersBy_iff (hr.get?_copy hcopy) hx', Heap.entersBy_iff hr.here hx]
    constructor
    · intro ht
      obtain ⟨q, he, hq⟩ := hm.enters_image (hr.alike hmem) ht
      obtain rfl := hcopy.injective r q hreach (.of_enters hr.here hmem hq) he
      exact hq
    · exact fun hxr => (hm.enters (hr.alike hmem) hxr).2

theorem timesEntered_eq (hreach : h.Reaches (.ref b) r) :
    k.timesEntered (m b) is (m r) = h.timesEntered b is r :=
  List.countP_congr fun i _ => by simpa using hr.entersBy_iff hcopy hreach

theorem entryIndices_eq : entryIndices k (m b) = entryIndices h b := by
  rw [Walk.entryIndices_eq (hr.get?_copy hcopy), Walk.entryIndices_eq hr.here, List.length_map]
  apply List.filter_congr
  intro i _
  rw [List.getElem?_map]
  cases es[i]? with
  | none => rfl
  | some e => simp only [Option.map_some, Option.bind_some, Value.asText?_map]

theorem once (ho : h.Once b is) : k.Once (m b) is := by
  have hm := hr.mirrors hcopy
  intro i hi j hj hij t node' hti htj hn' y hy s hs
  have hreach : ∃ r, t = m r ∧ h.Reaches (.ref b) r := by
    obtain ⟨js, hjs⟩ := hti
    obtain ⟨r, rfl, hbr⟩ := hm.enters_image hcopy.alike ⟨i :: js, hjs⟩
    exact ⟨r, rfl, hbr.reaches⟩
  obtain ⟨r, rfl, hreach⟩ := hreach
  cases hn : h.open? r with
  | none =>
    rw [hm.shut r hreach hn] at hn'
    cases hn'
  | some node =>
    obtain ⟨x, hx, hs⟩ := (hcopy.same_texts.mem hreach hn hn').2 ⟨y, hy, hs⟩
    exact ho i hi j hj hij r node ((hr.entersBy_iff hcopy hreach).1 hti)
      ((hr.entersBy_iff hcopy hreach).1 htj) hn x hx s hs

theorem fillEntries_eq_ok {w : Walk} (hrun : fillEntries values (m b) ⟨k, [], []⟩ = .ok w) :
    h.IsFilling values b w.heap m ∧ (h.Once b (entryIndices h b) →
      w.used = addNew [] (h.metPaths b) ∧
      ∀ i ∈ entryIndices h b, ∀ x, (Node.dict es).slot? i = some x →
        ∀ s, h.Meets x s → h.Fills values s) := by
  have hst := hr.stage hcopy
  have hm := hr.mirrors hcopy
  have hslots : ∀ i ∈ entryIndices h b, ∃ x, ((Node.dict es).map m).slot? i = some x := by
    intro i hi
    obtain ⟨x, hx⟩ := slot?_of_mem_entryIndices hr.here hi
    exact ⟨x.map m, by rw [Node.slot?_map, hx]; rfl⟩
  rw [fillEntries, hr.entryIndices_eq hcopy] at hrun
  obtain ⟨hw, hused⟩ := (hst.start hcopy.keeps [] []).entries hst (nodup_entryIndices h b)
    (fun _ _ => List.not_mem_nil)
    hslots hrun
  rw [List.append_nil] at hw hused
  refine ⟨⟨hw.keeps, hw.closed hst hcopy.closed, fun r node hreach hn => ?_, hcopy.injective,
    hcopy.fresh⟩, fun ho => ?_⟩
  · by_cases hrb : r = b
    · subst hrb
      obtain rfl := Option.some.inj (hr.here.symm.trans hn)
      rw [hw.places, partly]
      refine congrArg some (Node.mapSlots_congr fun i v _ => ?_)
      simp only [Heap.refill, ↓reduceIte]
    · have hne : m r ≠ m b := fun he => hrb (hcopy.injective r b hreach (.refl h b) he)
      rw [hw.others (m r) hne, hcopy.node r node hreach hn, Option.map_some,
        hr.timesEntered_eq hcopy hreach, Node.iterate_fill_eq]
      refine congrArg some (Node.mapSlots_congr fun i v _ => ?_)
      simp only [Heap.refill, hrb, ↓reduceIte]
  · obtain ⟨hu, hf⟩ := hused (hr.once hcopy ho)
    have htour : ∀ x ∈ (Node.dict es).slots, k.tour [] [x.map m] = h.tour [] [x] := by
      intro x hx
      have hseen : ∀ r ∈ ([] : List Ref), h.Reaches (.ref b) r := List.forall_mem_nil _
      exact hm.tour_eq hcopy.same_texts hseen (.cons (hr.alike hx) .nil)
        (congrArg (fun o => [o]) (Value.asText?_map m x))
    constructor
    · have hmap : ((Node.dict es).map m).slot? = fun i =>
          ((Node.dict es).slot? i).map (Value.map m) := funext fun i => Node.slot?_map m _ i
      rw [hu, Heap.metPaths, Heap.filledEntries, hr.here, hmap, ← List.map_filterMap,
        List.flatMap_map]
      refine congrArg _ (List.flatMap_congr fun x hx => ?_)
      obtain ⟨i, _, hi⟩ := List.mem_filterMap.1 hx
      rw [htour x (Node.mem_slots.2 ⟨i, hi⟩)]
    · intro i hi x hx s hs
      refine hf (x.map m) ?_ s ?_
      · exact List.mem_filterMap.2 ⟨i, hi, by rw [Node.slot?_map, hx]; rfl⟩
      · have hmem : x ∈ (Node.dict es).slots := Node.mem_slots.2 ⟨i, hx⟩
        exact (hm.meets_iff hcopy.same_texts (hr.alike hmem) (Value.asText?_map m x)).2 hs

theorem fillEntries_fills {w : Walk} (hrun : fillEntries values (m b) ⟨k, [], []⟩ = .ok w) :
    ∀ i ∈ entryIndices h b, ∀ x, (Node.dict es).slot? i = some x →
      ∀ s, h.Meets x s → h.Fills values s := by
  have hst := hr.stage hcopy
  have hm := hr.mirrors hcopy
  rw [fillEntries, hr.entryIndices_eq hcopy] at hrun
  have hfills := (hst.start hcopy.keeps [] []).entries_fills hst (nodup_entryIndices h b)
    (fun _ _ => List.not_mem_nil)
    (fun i hi => by
      obtain ⟨x, hx⟩ := slot?_of_mem_entryIndices hr.here hi
      exact ⟨x.map m, by rw [Node.slot?_map, hx]; rfl⟩)
    (List.forall_mem_nil _) hrun
  intro i hi x hx s hs
  have hmem : x ∈ (Node.dict es).slots := Node.mem_slots.2 ⟨i, hx⟩
  refine hfills i hi (x.map m) (by rw [Node.slot?_map, hx]; rfl) s ?_
  exact (hm.meets_iff hcopy.same_texts (hr.alike hmem) (Value.asText?_map m x)).2 hs

theorem fillEntries_total
    (hn : ∀ x ∈ (Node.dict es).slots, h.Shallow h.depths.fill [] x)
    (hf : h.Once b (entryIndices h b) ∧ (∀ i ∈ entryIndices h b, ∀ x,
        (Node.dict es).slot? i = some x → ∀ s, h.Meets x s → h.Fills values s) ∨
      ∀ s, h.Fills values s) :
    ∃ w, fillEntries values (m b) ⟨k, [], []⟩ = .ok w := by
  have hst := hr.stage hcopy
  have hm := hr.mirrors hcopy
  rw [fillEntries, hr.entryIndices_eq hcopy]
  refine (hst.start hcopy.keeps [] []).entries_total hst (nodup_entryIndices h b)
    (fun _ _ => List.not_mem_nil) ?_ ?_ ?_
  · intro i hi
    obtain ⟨x, hx⟩ := slot?_of_mem_entryIndices hr.here hi
    exact ⟨x.map m, by rw [Node.slot?_map, hx]; rfl⟩
  · rw [Node.slots_map, List.forall_mem_map]
    intro x hx
    have hseen : ∀ r ∈ ([] : List Ref), h.Reaches (.ref b) r := List.forall_mem_nil _
    rw [hcopy.keeps.depths]
    exact hm.shallow (hr.alike hx) hseen (hn x hx)
  · intro i hi y done w hy hnot hsub hw s hs
    rcases hf with ⟨ho, hf⟩ | hf
    · rw [hw.meets_iff hst (hr.once hcopy ho) (fun j hj => by simpa using hsub j hj) hi hnot
        hy] at hs
      rw [Node.slot?_map, Option.map_eq_some_iff] at hy
      obtain ⟨x, hx, rfl⟩ := hy
      have hmem : x ∈ (Node.dict es).slots := Node.mem_slots.2 ⟨i, hx⟩
      rw [hm.meets_iff hcopy.same_texts (hr.alike hmem) (Value.asText?_map m x)] at hs
      exact hf i hi x hx s hs
    · exact hf s

end Ready

end Walk

namespace Prompt

variable {h k : Heap} {p : Prompt} {values content : Value} {b : Ref} {es : List (Value × Value)}
  {used : List String}

/-- A body is filled in two steps: it is copied, and then the copy is walked through. -/
theorem fillChecked_inv (hrun : p.fillChecked h values = .filled content used k) :
    ∃ r k₁ w, h.copy p.body = .ok (.ref r, k₁) ∧
      Walk.fillEntries values r ⟨k₁, [], []⟩ = .ok w ∧ content = .ref r ∧
      used = Walk.addNew w.used (p.declared h) ∧ k = w.heap := by
  rw [fillChecked] at hrun
  cases hcopy : h.copy p.body with
  | error cause =>
    rw [hcopy] at hrun
    cases hrun
  | ok copied =>
    obtain ⟨v, k₁⟩ := copied
    rw [hcopy] at hrun
    cases v with
    | ref r =>
      simp only [] at hrun
      cases hfill : Walk.fillEntries values r ⟨k₁, [], []⟩ with
      | error cause =>
        rw [hfill] at hrun
        cases hrun
      | ok w =>
        rw [hfill] at hrun
        cases hrun
        exact ⟨r, k₁, w, rfl, hfill, rfl, rfl, rfl⟩
    | _ => cases hrun

theorem fillChecked_eq_filled (hr : Walk.Ready h values b es) (hp : p.body = .ref b)
    (hrun : p.fillChecked h values = .filled content used k) :
    ∃ m, content = .ref (m b) ∧ h.IsFilling values b k m ∧
      (h.Once b (Walk.entryIndices h b) →
        used = Walk.addNew (Walk.addNew [] (h.metPaths b)) (p.declared h) ∧
        ∀ i ∈ Walk.entryIndices h b, ∀ x, (Node.dict es).slot? i = some x →
          ∀ s, h.Meets x s → h.Fills values s) := by
  obtain ⟨r, k₁, w, hcopy, hfill, rfl, rfl, rfl⟩ := fillChecked_inv hrun
  rw [hp] at hcopy
  obtain ⟨m, hm⟩ := Heap.isCopy_of_copy hr.closed hr.holds_body hcopy
  obtain rfl : r = m b := Value.ref.inj hm.value
  obtain ⟨hf, hused⟩ := hr.fillEntries_eq_ok hm hfill
  refine ⟨m, rfl, hf, fun ho => ?_⟩
  obtain ⟨hu, hmeets⟩ := hused ho
  exact ⟨by rw [hu], hmeets⟩

theorem fillChecked_fills (hr : Walk.Ready h values b es) (hp : p.body = .ref b)
    (hrun : p.fillChecked h values = .filled content used k) :
    ∀ i ∈ Walk.entryIndices h b, ∀ x, (Node.dict es).slot? i = some x →
      ∀ s, h.Meets x s → h.Fills values s := by
  obtain ⟨r, k₁, w, hcopy, hfill, -⟩ := fillChecked_inv hrun
  rw [hp] at hcopy
  obtain ⟨m, hm⟩ := Heap.isCopy_of_copy hr.closed hr.holds_body hcopy
  obtain rfl : r = m b := Value.ref.inj hm.value
  exact hr.fillEntries_fills hm hfill

theorem fillChecked_total (hr : Walk.Ready h values b es) (hp : p.body = .ref b)
    (hn : h.Nested h.depths.resolve [] (.ref b)) (ha : h.Copyable (.ref b))
    (hf : h.Once b (Walk.entryIndices h b) ∧ (∀ i ∈ Walk.entryIndices h b, ∀ x,
        (Node.dict es).slot? i = some x → ∀ s, h.Meets x s → h.Fills values s) ∨
      ∀ s, h.Fills values s) :
    ∃ content used k, p.fillChecked h values = .filled content used k := by
  obtain ⟨m, k, hcopy, hm⟩ :=
    Heap.exists_isCopy hr.closed hr.holds_body (hn.mono (Nat.min_le_left _ _)) ha
  have hshallow := (hn.mono (Nat.min_le_right _ _)).shallow_slots
    (Heap.open?_eq_some.2 ⟨hr.here, rfl⟩) hr.apart
  obtain ⟨w, hfill⟩ := hr.fillEntries_total hm hshallow hf
  rw [fillChecked, hp, hcopy, Value.map_ref]
  simp only [hfill]
  exact ⟨_, _, _, rfl⟩

end Prompt

end Promptbook
