import Promptbook.Proofs.Body.Resolved

namespace Promptbook

namespace Walk

/-- A walk in the middle of its way through the containers that are entered from a value: texts may
have been replaced, but what leads to a container leads to it still. -/
structure Steady (h k : Heap) (root : Value) (seen : List Ref) (w : Walk) : Prop where
  keeps : h.Extends w.heap
  closed : w.heap.Closed
  shut : ∀ r, k.Enters root r → k.open? r = none → w.heap.open? r = none
  opened : ∀ r node, k.Enters root r → k.open? r = some node →
    ∃ node', w.heap.open? r = some node' ∧
      ∀ i, (node'.slot? i).map Value.asRef? = (node.slot? i).map Value.asRef?
  visited : ∀ r ∈ seen, r ∈ w.visited

def Returns (h k : Heap) (root : Value) (seen : List Ref)
    (step : Value → Walk → Except Fault (Value × Walk)) (v : Value) : Prop :=
  ∀ w, Steady h k root seen w → ∃ v' w', step v w = .ok (v', w') ∧ v'.asRef? = v.asRef? ∧
    Steady h k root seen w'

variable {h k : Heap} {root values v v' x : Value} {seen seen' : List Ref} {r b : Ref}
  {node node' : Node} {w w' : Walk} {i n : Nat} {is : List Nat}
  {step : Value → Walk → Except Fault (Value × Walk)}

theorem Steady.mono (hw : Steady h k root seen w) (hseen : seen' ⊆ seen) :
    Steady h k root seen' w :=
  { hw with visited := fun r hr => hw.visited r (hseen hr) }

theorem Steady.enter (hw : Steady h k root seen w) (r : Ref) :
    Steady h k root (r :: seen) { w with visited := r :: w.visited } where
  keeps := hw.keeps
  closed := hw.closed
  shut := hw.shut
  opened := hw.opened
  visited := by
    intro q hq
    cases List.mem_cons.1 hq with
    | inl he => exact he ▸ List.mem_cons_self
    | inr hq => exact List.mem_cons_of_mem r (hw.visited q hq)

theorem Steady.write (hw : Steady h k root seen w) (hr : h.get? r = none)
    (hn : w.heap.get? r = some node) (hx : node.slot? i = some x) (hv : v.asRef? = x.asRef?) :
    Steady h k root seen { w with heap := w.heap.setSlot r i v } := by
  have hself := Heap.get?_setSlot_self (i := i) (v := v) hn
  have hother : ∀ q, q ≠ r → (w.heap.setSlot r i v).get? q = w.heap.get? q := fun q hq =>
    Heap.get?_setSlot_of_ne (Ne.symm hq)
  have hopen : ∀ q, q ≠ r → (w.heap.setSlot r i v).open? q = w.heap.open? q := by
    intro q hq
    rw [Heap.open?, Heap.open?, hother q hq]
  have hnode := Node.setSlot_eq_mapSlots (w := v) hx
  have hisOpen : w.heap.open? r = some node :=
    Heap.open?_eq_some.2 ⟨hn, Node.isOpen_of_slot? hx⟩
  refine ⟨?_, ?_, ?_, ?_, hw.visited⟩
  · simp only [Heap.setSlot, hn]
    exact hw.keeps.set hr _
  · intro q p st u hq hu t ht
    subst ht
    have hheld : w.heap.Holds (.ref t) := by
      by_cases hqr : q = r
      · subst hqr
        obtain rfl := Option.some.inj (hself.symm.trans hq)
        exact hw.closed.holds_step hn (Node.step?_setSlot_ref hx hv hu)
      · exact hw.closed.holds_step ((hother q hqr).symm.trans hq) hu
    simp only [Heap.setSlot, hn]
    exact hheld.set r _ t rfl
  · intro q hq hshut
    by_cases hqr : q = r
    · subst hqr
      rw [hw.shut q hq hshut] at hisOpen
      cases hisOpen
    · rw [hopen q hqr]
      exact hw.shut q hq hshut
  · intro q p hq hp
    obtain ⟨p', hp', hslots⟩ := hw.opened q p hq hp
    by_cases hqr : q = r
    · subst hqr
      obtain rfl := Option.some.inj (hisOpen.symm.trans hp')
      refine ⟨node.setSlot i v, Heap.open?_eq_some.2 ⟨hself, ?_⟩, ?_⟩
      · rw [hnode, Node.isOpen_mapSlots]
        exact Node.isOpen_of_slot? hx
      · intro j
        rw [← hslots j, hnode, Node.slot?_mapSlots]
        by_cases hj : j = i
        · subst hj
          simp only [hx, Option.map_some, ↓reduceIte, hv]
        · simp only [hj, ↓reduceIte, Option.map_id_fun', id]
    · exact ⟨p', by rw [hopen q hqr, hp'], hslots⟩

theorem Returns.eachSlot (hr : k.Enters root r) (ho : k.open? r = some node)
    (hf : h.Fresh k root)
    (hstep : ∀ i x v, node.slot? i = some x → v.asRef? = x.asRef? →
      Returns h k root seen step v)
    (hw : Steady h k root seen w) :
    ∃ w', eachSlot step r is w = .ok w' ∧ Steady h k root seen w' := by
  induction is generalizing w with
  | nil => exact ⟨w, rfl, hw⟩
  | cons i is ih =>
    obtain ⟨node', ho', hslots⟩ := hw.opened r node hr ho
    obtain ⟨hn', -⟩ := Heap.open?_eq_some.1 ho'
    rw [Walk.eachSlot, hn', Option.bind_some]
    cases hv : node'.slot? i with
    | none => exact ih hw
    | some v =>
      have hsame := hslots i
      rw [hv, Option.map_some] at hsame
      obtain ⟨x, hx, hvx⟩ := Option.map_eq_some_iff.1 hsame.symm
      obtain ⟨v', w₁, hrun, hv', hw₁⟩ := hstep i x v hx hvx.symm w hw
      obtain ⟨node₁, ho₁, hslots₁⟩ := hw₁.opened r node hr ho
      obtain ⟨hn₁, -⟩ := Heap.open?_eq_some.1 ho₁
      have hsame₁ := hslots₁ i
      rw [hx, Option.map_some] at hsame₁
      obtain ⟨y, hy, hyx⟩ := Option.map_eq_some_iff.1 hsame₁
      have hwritten := hw₁.write (hf r node hr ho) hn₁ hy (hv'.trans (hvx.symm.trans hyx.symm))
      obtain ⟨w', hrest, hw'⟩ := ih hwritten
      exact ⟨w', by simp only [hrun, ok_bind, hrest], hw'⟩

theorem shallow_of_asRef? {u : Value} (hn : k.Shallow n seen u) (hv : v.asRef? = u.asRef?) :
    k.Shallow n seen v := by
  cases n with
  | zero => exact hn.elim
  | succ n =>
    rintro r node rfl
    exact hn r node (Value.asRef?_eq_some.1 hv.symm)

theorem fillWithin_returns (hc : h.Closed) (hvalues : h.Holds values) (hf : h.Fresh k root)
    (hfills : ∀ s, h.Fills values s) (hn : k.Shallow n seen v)
    (hv : ∀ r, v = .ref r → k.Enters root r) :
    Returns h k root seen (fillWithin values n) v := by
  induction n generalizing seen v with
  | zero => exact hn.elim
  | succ n ih =>
    intro w hw
    rw [fillWithin]
    cases ht : v.asText? with
    | some s =>
      obtain ⟨t, hsub⟩ := hfills s
      rw [← hw.keeps.substitute_eq hc hvalues] at hsub
      exact ⟨.text t, w.note s, by simp only [hsub, ok_bind, Option.getD_some]; rfl,
        (Value.asRef?_of_asText? ht).symm, ⟨hw.keeps, hw.closed, hw.shut, hw.opened, hw.visited⟩⟩
    | none =>
      cases hr : v.asRef? with
      | none => exact ⟨v, w, rfl, hr, hw⟩
      | some r =>
        obtain rfl := Value.asRef?_eq_some.1 hr
        have hroot := hv r rfl
        simp only []
        cases ho : k.open? r with
        | none =>
          rw [hw.shut r hroot ho]
          exact ⟨_, w, rfl, hr, hw⟩
        | some node =>
          obtain ⟨node', ho', -⟩ := hw.opened r node hroot ho
          rw [ho']
          by_cases hin : r ∈ w.visited
          · exact ⟨_, w, if_pos hin, hr, hw⟩
          · have hnot : r ∉ seen := fun hmem => hin (hw.visited r hmem)
            obtain ⟨w', hrun, hw'⟩ : ∃ w', Walk.eachSlot (fillWithin values n) r
                (List.range node'.slotCount) { w with visited := r :: w.visited } = .ok w' ∧
                  Steady h k root (r :: seen) w' := Returns.eachSlot hroot ho hf
              (fun i x v hx hvx => ih
                (shallow_of_asRef? (hn r node rfl hnot ho x (Node.mem_slots.2 ⟨i, hx⟩)) hvx)
                fun q hq => by
                  subst hq
                  obtain rfl := Value.asRef?_eq_some.1 hvx.symm
                  exact hroot.tail (Heap.open?_eq_some.1 ho).1 hx)
              (hw.enter r)
            refine ⟨_, w', ?_, hr, hw'.mono (List.subset_cons_self r seen)⟩
            simp only [hin, ↓reduceIte, hrun, ok_bind]
            rfl

theorem steady_start (hc : k.Closed) (he : h.Extends k) (root : Value) (used : List String) :
    Steady h k root [] ⟨k, used, []⟩ where
  keeps := he
  closed := hc
  shut _ _ hn := hn
  opened _ node _ hn := ⟨node, hn, fun _ => rfl⟩
  visited := List.forall_mem_nil _

theorem fillEntries_returns (hc : h.Closed) (hvalues : h.Holds values)
    (hf : h.Fresh k (.ref b)) (hfills : ∀ s, h.Fills values s) (ho : k.open? b = some node)
    (hn : ∀ x ∈ node.slots, k.Shallow h.depths.fill [] x)
    (hw : Steady h k (.ref b) [] w) :
    ∃ w', fillEntries values b w = .ok w' ∧ Steady h k (.ref b) [] w' := by
  have hself := Heap.Enters.refl k b
  rw [fillEntries, hw.keeps.depths]
  apply Returns.eachSlot hself ho hf _ hw
  intro i x v hx hvx w hw
  have hreturns := fillWithin_returns hc hvalues hf hfills
    (shallow_of_asRef? (hn x (Node.mem_slots.2 ⟨i, hx⟩)) hvx) fun q hq => by
      subst hq
      obtain rfl := Value.asRef?_eq_some.1 hvx.symm
      exact hself.tail (Heap.open?_eq_some.1 ho).1 hx
  exact hreturns { w with visited := [] }
    ⟨hw.keeps, hw.closed, hw.shut, hw.opened, List.forall_mem_nil _⟩

end Walk

namespace Prompt

variable {h : Heap} {p : Prompt} {values : Value} {b : Ref} {es : List (Value × Value)}

/-- A body nested below the limit, and so in each of its places, is filled if replacement fails in
no text. -/
theorem fillChecked_returns (hc : h.Closed) (hvalues : h.Holds values) (hp : p.body = .ref b)
    (hb : h.get? b = some (.dict es)) (hn : h.Nested h.depths.resolve [] (.ref b))
    (ha : h.Copyable (.ref b))
    (hslots : ∀ x ∈ (Node.dict es).slots, h.Nested h.depths.resolve [] x)
    (hfills : ∀ s, h.Fills values s) :
    ∃ content used k, p.fillChecked h values = .filled content used k ∧ h.Extends k ∧
      k.Closed := by
  have hheld : h.Holds (.ref b) := by
    intro q hq
    cases hq
    exact ⟨_, hb⟩
  obtain ⟨m, k, hcopy, hm⟩ := Heap.exists_isCopy hc hheld (hn.mono (Nat.min_le_left _ _)) ha
  have hroot : k.open? (m b) = some ((Node.dict es).map m) :=
    Heap.open?_eq_some.2 ⟨hm.node b _ (.refl h b) hb, rfl⟩
  have hshallow : ∀ x ∈ ((Node.dict es).map m).slots, k.Shallow h.depths.fill [] x := by
    rw [Node.slots_map, List.forall_mem_map]
    intro x hx
    have halike : Heap.Alike m (h.Reaches (.ref b)) x (x.map m) := by
      refine ⟨Value.asRef?_map m x, ?_⟩
      intro q heq
      subst heq
      exact .of_enters hb hx (.refl h q)
    exact (hm.mirrors hc hheld).shallow halike (List.forall_mem_nil _)
      ((hslots x hx).mono (Nat.min_le_right _ _)).shallow
  obtain ⟨w, hfill, hw⟩ := Walk.fillEntries_returns hc hvalues (hm.fresh_entered hc hheld) hfills
    hroot hshallow (Walk.steady_start hm.closed hm.keeps (.ref (m b)) [])
  rw [fillChecked, hp, hcopy, Value.map_ref]
  simp only [hfill]
  exact ⟨_, _, _, rfl, hw.keeps, hw.closed⟩

theorem fillChecked_failed {key : Value} {s : String} {cause : Fault} (hc : h.Closed)
    (hvalues : h.Holds values) (hp : p.body = .ref b)
    (hb : h.get? b = some (.dict ((key, .text s) :: es)))
    (hkey : key.asText? ≠ some "variables") (hn : h.Nested h.depths.resolve [] (.ref b))
    (ha : h.Copyable (.ref b))
    (hs : h.substitute values s = .error cause) : p.fillChecked h values = .failed cause := by
  have hheld : h.Holds (.ref b) := by
    intro q hq
    cases hq
    exact ⟨_, hb⟩
  obtain ⟨m, k, hcopy, hm⟩ := Heap.exists_isCopy hc hheld (hn.mono (Nat.min_le_left _ _)) ha
  have hroot := hm.node b _ (.refl h b) hb
  have hfirst : ∃ is, Walk.entryIndices k (m b) = 0 :: is := by
    rw [Node.map] at hroot
    rw [Walk.entryIndices_eq hroot, List.length_map, List.length_cons, List.range_succ_eq_map,
      List.filter_cons_of_pos]
    · exact ⟨_, rfl⟩
    · simpa using hkey
  obtain ⟨is, his⟩ := hfirst
  have hslot : (k.get? (m b)).bind (·.slot? 0) = some (.text s) := by
    rw [hroot, Option.bind_some, Node.slot?_map]
    rfl
  have hstep : Walk.fillWithin values k.depths.fill (.text s) ⟨k, [], []⟩ = .error cause := by
    obtain ⟨n, hn⟩ := Nat.exists_eq_add_of_le' k.depths.two_le_fill
    rw [hn, Walk.fillWithin]
    simp only [Value.asText?_text, hm.keeps.substitute_eq hc hvalues, hs]
    rfl
  have hfill : Walk.fillEntries values (m b) ⟨k, [], []⟩ = .error cause := by
    rw [Walk.fillEntries, his, Walk.eachSlot]
    simp only [hslot, hstep]
    rfl
  rw [fillChecked, hp, hcopy, Value.map_ref]
  simp only [hfill]

end Prompt

namespace Action

variable {p : Prompt} {values : Value} {s : Session} {b : Ref} {es : List (Value × Value)}

theorem resolve_returns (reporting : Bool) {verdict : Verdict} (hc : s.heap.Closed)
    (hp : p.Stored s.heap) (hplain : p.Plain s.heap) (hv : s.heap.Holds values)
    (hcheck : Body.check s.heap p.body = .ok verdict) (haccepts : verdict.accepts = true)
    (hn : s.heap.Nested s.heap.depths.resolve [] p.body) (ha : s.heap.Copyable p.body)
    (hslots : ∀ st x, s.heap.follow [st] p.body = some x → s.heap.Nested s.heap.depths.resolve [] x)
    (hfills : ∀ t, s.heap.Fills values t) :
    ∃ payload s', (resolve reporting (some p) values).run.run s = (.ok payload, s') := by
  have he := s.heap.extends_supply values
  obtain ⟨b, es, hbody, hb⟩ := Body.dict_of_check hcheck haccepts
  have hbheld : s.heap.Holds (.ref b) := hbody ▸ hp.body
  rw [hbody] at hn ha hslots
  obtain ⟨content, used, k, hfill, hkeeps, hclosed⟩ := Prompt.fillChecked_returns
    (Heap.closed_supply hc values) (Heap.holds_supply hv) hbody (he.keeps hb)
    (he.depths ▸ he.nested hc hbheld hn) (he.copyable hc hbheld ha)
    (fun x hx => by
      rw [he.depths]
      obtain ⟨i, hi⟩ := Node.mem_slots.1 hx
      have hstep : s.heap.follow [.slot i] (.ref b) = some x :=
        Heap.follow_single.2 ⟨b, _, rfl, hb, hi⟩
      exact he.nested hc (hc.holds_slot hb hi) (hslots _ x hstep))
    (fun t => by
      rw [Heap.Fills, Heap.substitute_supply]
      exact hfills t)
  exact resolve_of_filled reporting hc hp hplain hcheck haccepts hfill hkeeps hclosed

theorem resolve_of_failed {verdict : Verdict} {cause : Fault} {id : String} (hc : s.heap.Closed)
    (hp : p.Stored s.heap) (hcheck : Body.check s.heap p.body = .ok verdict)
    (haccepts : verdict.accepts = true)
    (hfill : p.fillChecked (s.heap.supply values).2 (s.heap.supply values).1 = .failed cause)
    (hid : s.heap.text p.id = .ok id) :
    ((resolve false (some p) values).run.run s).1 = .error (.substitution <|
      if cause = .tooDeep then s!"Template '{id}' is nested too deeply to resolve"
      else s!"Variable substitution failed for '{id}': {cause.message}") := by
  have he := s.heap.extends_supply values
  have hfill' : p.fill (s.heap.supply values).2 (s.heap.supply values).1 = .failed cause := by
    rw [Prompt.fill, Body.check_eq he hc hp.body, hcheck]
    simp only [haccepts, ↓reduceIte]
    exact hfill
  have hid' : (s.heap.supply values).2.text p.id = .ok id := by
    rw [he.text_eq hc hp.id, hid]
  have hfailure : (substitutionFailure p cause).run.run
      { s with heap := (s.heap.supply values).2 } = (.ok (.substitution <|
        if cause = .tooDeep then s!"Template '{id}' is nested too deeply to resolve"
        else s!"Variable substitution failed for '{id}': {cause.message}"),
        { s with heap := (s.heap.supply values).2 }) := by
    rw [substitutionFailure, run_bind_ok (run_read_eq_ok.2 ⟨hid', rfl⟩)]
    rfl
  rw [run_resolve, resolvePrompt, run_bind_ok (run_get _)]
  simp only [hfill', Bool.false_eq_true, ↓reduceIte]
  rw [run_bind_ok hfailure]
  rfl

end Action

end Promptbook
