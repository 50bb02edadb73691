import Promptbook.Proofs.Body.Resolved

namespace Promptbook

namespace Walk

variable {used ps : List String}

theorem addNew_eq (used ps : List String) :
    addNew used ps = used ++ (ps.filter (· ∉ used)).eraseDups := by
  induction ps generalizing used with
  | nil => simp [addNew]
  | cons p ps ih =>
    rw [addNew, ih]
    by_cases hp : p ∈ used
    · simp [hp]
    · simp only [hp, ↓reduceIte, not_false_eq_true, decide_true, List.filter_cons_of_pos,
        List.eraseDups_cons, List.append_assoc, List.singleton_append, List.filter_filter]
      refine congrArg (fun l => used ++ p :: l.eraseDups) (List.filter_congr fun q _ => ?_)
      by_cases hqp : q = p <;> simp [hqp, hp]

theorem nodup_addNew (hu : used.Nodup) : (addNew used ps).Nodup := by
  induction ps generalizing used with
  | nil => exact hu
  | cons p ps ih =>
    rw [addNew]
    split
    · exact ih hu
    · rename_i hp
      refine ih (List.nodup_append.2 ⟨hu, List.nodup_singleton p, ?_⟩)
      intro q hq r hr heq
      subst heq
      exact hp (List.mem_singleton.1 hr ▸ hq)

end Walk

namespace Heap

variable {h k : Heap} {values x : Value} {b r : Ref} {root node : Node} {i j : Nat}
  {is : List Nat} {m : Ref → Ref}

/-- A container is reached by way of a numbered place of a body. -/
def ReachesBy (h : Heap) (b : Ref) (i : Nat) (r : Ref) : Prop :=
  ∃ ρ, h.follow (.slot i :: ρ) (.ref b) = some (.ref r)

/-- No list or dictionary is reached by way of two entries of a body, and the body by way of
none. -/
structure Separate (h : Heap) (b : Ref) : Prop where
  distinct : ∀ i j r node, h.ReachesBy b i r → h.ReachesBy b j r → h.open? r = some node → i = j
  apart : ∀ i, ¬ h.ReachesBy b i b

/-- A place that resolution fills: an entry of the body other than its list of variables, or a place
of a list or dictionary that is entered by way of one. -/
def Live (h : Heap) (b r : Ref) (i : Nat) : Prop :=
  r = b ∧ h.IsFilledEntry b i ∨ r ≠ b ∧ ∃ j, h.IsFilledEntry b j ∧ h.EntersBy b j r

open Classical in
/-- A body stands copied in another heap, each container with the same places and the same sharing.
The texts in live places have been replaced once, and nothing else differs; in particular not what
the list of variables reaches. -/
structure IsFilledOnce (h : Heap) (values : Value) (b : Ref) (k : Heap) (m : Ref → Ref) :
    Prop where
  keeps : h.Extends k
  injective : ∀ r q, h.Reaches (.ref b) r → h.Reaches (.ref b) q → m r = m q → r = q
  node : ∀ r node, h.Reaches (.ref b) r → h.get? r = some node →
    k.get? (m r) = some ((node.map m).mapSlots fun i v =>
      if h.Live b r i then v.fill (h.filled values) else v)
  replaced : ∀ t, h.Uses b t → h.substitute values t = .ok (h.filled values t)
  declared : ∀ i r node, ¬ h.IsFilledEntry b i → h.ReachesBy b i r → h.get? r = some node →
    k.get? (m r) = some (node.map m)

theorem EntersBy.reachesBy (hr : h.EntersBy b i r) : h.ReachesBy b i r := by
  obtain ⟨is, hi⟩ := hr
  exact ⟨is.map .slot, hi⟩

theorem ReachesBy.reaches (hr : h.ReachesBy b i r) : h.Reaches (.ref b) r := by
  obtain ⟨ρ, hρ⟩ := hr
  exact ⟨_, hρ⟩

/-- A body's entries share nothing if each container has an entry of its own that every route to it
starts with. -/
theorem separate_of_owner (owner : Ref → Nat) (hb : h.get? b = some root)
    (hroot : ∀ i < root.slotCount, ∀ r ∈ (root.slot? i).bind Value.asRef?, r ≠ b ∧ owner r = i)
    (hstep : ∀ j < h.nodes.size, j ≠ b.index → ∀ node ∈ h.nodes[j]?, ∀ v ∈ node.elements,
      ∀ q ∈ v.asRef?, q ≠ b ∧ owner q = owner ⟨j⟩) : h.Separate b := by
  have howner : ∀ i r, h.ReachesBy b i r → r ≠ b ∧ owner r = i := by
    rintro i r ⟨ρ, hρ⟩
    obtain ⟨q, node, x, ⟨⟩, hq, hx, hr⟩ := follow_cons_eq_some.1 hρ
    obtain rfl := Option.some.inj (hb.symm.trans hq)
    have hfollow : ∀ v, (∀ q, v = .ref q → q ≠ b ∧ owner q = i) → h.Reaches v r →
        r ≠ b ∧ owner r = i := by
      intro v hv hr
      refine hr.induction (P := fun v => (∀ q, v = .ref q → q ≠ b ∧ owner q = i) →
        r ≠ b ∧ owner r = i) (fun hv => hv r rfl) ?_ hv
      rintro q node st u hq hu - ih hv
      apply ih
      intro t heq
      subst heq
      obtain ⟨hqb, hqi⟩ := hv q rfl
      have hlt := (Array.getElem?_eq_some_iff.1 hq).1
      have hne : q.index ≠ b.index := fun he => hqb (by cases q; cases b; cases he; rfl)
      obtain ⟨htb, ht⟩ := hstep q.index hlt hne node hq _ (Node.mem_elements.2 ⟨st, hu⟩) t rfl
      exact ⟨htb, ht.trans hqi⟩
    refine hfollow x ?_ ⟨ρ, hr⟩
    intro t heq
    subst heq
    have hlt : i < root.slotCount := by
      have hi : root.slots[i]? = some (.ref t) := (Node.slot?_eq_slots root i).symm.trans hx
      rw [← Node.length_slots]
      exact (List.getElem?_eq_some_iff.1 hi).1
    have hx : root.slot? i = some (.ref t) := hx
    exact hroot i hlt t (by rw [hx]; rfl)
  refine ⟨fun i j r node hi hj _ => ?_, fun i hi => (howner i b hi).1 rfl⟩
  exact (howner i r hi).2.symm.trans (howner j r hj).2

theorem Extends.separate (he : h.Extends k) (hc : h.Closed) (hb : h.Holds (.ref b))
    (hs : h.Separate b) : k.Separate b := by
  have hby (i : Nat) (r : Ref) : k.ReachesBy b i r ↔ h.ReachesBy b i r := by
    simp only [ReachesBy, he.follow_eq hc hb]
  refine ⟨fun i j r node hi hj hn => ?_, fun i hi => hs.apart i ((hby i b).1 hi)⟩
  rw [hby] at hi hj
  rw [open?, he.get?_eq (hc.reached hb hi.reaches)] at hn
  exact hs.distinct i j r node hi hj hn

namespace Separate

variable (hs : h.Separate b)
include hs

theorem once (is : List Nat) : h.Once b is :=
  fun i _ j _ hij r node hir hjr hn =>
    absurd (hs.distinct i j r node hir.reachesBy hjr.reachesBy hn) hij

theorem apart_body : h.Apart (.ref b) := by
  rintro _ root ⟨⟩ hb x hx hxb
  obtain ⟨i, hi⟩ := Node.mem_slots.1 hx
  exact hs.apart i ((entersBy_iff hb hi).2 hxb).reachesBy

theorem flatMap_tour (hb : h.get? b = some root) :
    (h.filledEntries b).flatMap (fun x => h.tour [] [x]) = h.tour [] (h.filledEntries b) := by
  apply Heap.flatMap_tour
  rw [filledEntries, hb]
  refine List.Pairwise.filterMap _ ?_ (List.nodup_iff_pairwise_ne.1 (Walk.nodup_entryIndices h b))
  intro i j hij x hx y hy r hxr hyr
  rw [Option.eq_none_iff_forall_ne_some]
  intro node hn
  exact hij (hs.distinct i j r node ((entersBy_iff hb hx).2 hxr).reachesBy
    ((entersBy_iff hb hy).2 hyr).reachesBy hn)

theorem refill_eq (hn : h.open? r = some node) (hrb : r ≠ b) (i : Nat)
    (v : Value) : h.refill values b r i v =
      if 0 < h.timesEntered b (Walk.entryIndices h b) r then v.fill (h.filled values) else v := by
  have hle := timesEntered_le_one (r := r) (Walk.nodup_entryIndices h b) fun i _ j _ hi hj =>
    hs.distinct i j r node hi.reachesBy hj.reachesBy hn
  rw [refill, if_neg hrb]
  rcases Nat.le_one_iff_eq_zero_or_eq_one.1 hle with h0 | h1
  · rw [h0]
    rfl
  · rw [h1]
    rfl

theorem isFilledOnce (hk : h.IsFilling values b k m)
    (hf : ∀ t, h.Uses b t → h.Fills values t) : h.IsFilledOnce values b k m := by
  classical
  have hnode : ∀ r node, h.Reaches (.ref b) r → h.get? r = some node →
      k.get? (m r) = some ((node.map m).mapSlots fun i v =>
        if h.Live b r i then v.fill (h.filled values) else v) := by
    intro r node hr hn
    rw [hk.node r node hr hn]
    refine congrArg some (Node.mapSlots_congr fun i v hv => ?_)
    by_cases hrb : r = b
    · simp [refill, Live, hrb, Walk.mem_entryIndices]
    · have hopen : node.isOpen = true := by
        rw [← Node.isOpen_map m]
        exact Node.isOpen_of_slot? hv
      rw [hs.refill_eq (open?_eq_some.2 ⟨hn, hopen⟩) hrb]
      simp only [Live, hrb, false_and, ne_eq, not_false_eq_true, true_and, false_or,
        timesEntered_pos_iff, Walk.mem_entryIndices]
  refine ⟨hk.keeps, hk.injective, hnode, fun t ht => ?_, fun i r node hi hr hn => ?_⟩
  · obtain ⟨u, hu⟩ := hf t ht
    rw [hu, filled_eq hu]
  · rw [hnode r node hr.reaches hn, ← Node.mapSlots_id (node.map m), Node.mapSlots_mapSlots]
    refine congrArg some (Node.mapSlots_congr fun j v hv => if_neg ?_)
    rintro (⟨rfl, -⟩ | ⟨-, l, hl, hlr⟩)
    · exact hs.apart i hr
    · have hopen : node.isOpen = true := by
        rw [← Node.isOpen_map m]
        exact Node.isOpen_of_slot? hv
      exact hi (hs.distinct i l r node hr hlr.reachesBy (open?_eq_some.2 ⟨hn, hopen⟩) ▸ hl)

end Separate

end Heap

namespace Action

variable {p : Prompt} {values : Value} {payload : Payload} {s s' : Session} {reporting : Bool}
  {verdict : Verdict} {b : Ref}

/-- A checked and nested body whose entries share nothing is resolved, with every text that is filled
replaced exactly once, if no lookup and no rendering fails. -/
theorem resolve_isFilledOnce (hc : s.heap.Closed) (hp : p.Stored s.heap) (hplain : p.Plain s.heap)
    (hv : s.heap.Holds values) (hbody : p.body = .ref b)
    (hcheck : Body.check s.heap p.body = .ok verdict) (haccepts : verdict.accepts = true)
    (hn : s.heap.Nested s.heap.depths.resolve [] p.body) (hcopies : s.heap.Copyable p.body)
    (hs : s.heap.Separate b)
    (hlook : ∀ t, s.heap.Uses b t → ∀ path ∈ placeholderPaths t,
      ∃ o, s.heap.lookup path values = .ok o ∧ ∀ v, o = some v → ∃ u, s.heap.render v = .ok u) :
    ∃ payload s' m, (resolve reporting (some p) values).run.run s = (.ok payload, s') ∧
      payload.content = .ref (m b) ∧ s.heap.IsFilledOnce values b s'.heap m := by
  have hf : ∀ t, s.heap.Uses b t → s.heap.Fills values t := fun t ht =>
    Heap.substitute_total (hlook t ht)
  have ha : s.heap.Apart p.body := hbody ▸ hs.apart_body
  obtain ⟨payload, s', hrun⟩ := resolve_total reporting hc hp hplain hv ha hcheck haccepts
    hn hcopies fun b' hb' => by
      obtain rfl := Value.ref.inj (hbody.symm.trans hb')
      exact .inl ⟨hs.once _, hf⟩
  obtain ⟨b', es, m, hb', hes, hcontent, hk, -⟩ := resolve_eq_ok hc hp hv ha hrun
  obtain rfl := Value.ref.inj (hbody.symm.trans hb')
  exact ⟨payload, s', m, hrun, hcontent, hs.isFilledOnce hk hf⟩

/-- The places of a prompt whose context contains itself and a list that leads back to it, and of its
variables. -/
def loopedHeap : Heap where
  nodes := #[
    .dict [(.text "task", .text "Do ${a}"), (.text "instructions", .text "Use ${ b.c }"),
      (.text "context", .ref ⟨1⟩), (.text "output_format", .ref ⟨3⟩),
      (.text "variables", .ref ⟨4⟩)],
    .dict [(.text "items", .ref ⟨2⟩), (.text "again", .ref ⟨1⟩)],
    .list [.text "${a} and ${z}", .ref ⟨1⟩, .int 7],
    .dict [],
    .list [.text "a", .text "d", .text "${a}"],
    .dict [(.text "a", .text "${b.c}")]]

def loopedPrompt : Prompt where
  serial := 0
  id := .text "looped"
  name := .text "looped"
  body := .ref ⟨0⟩
  description := .text ""
  category := .general
  version := .text "1.0.0"
  schemaVersion := .text "1.0"
  options := ⟨.null, .null, .null, .null, .null⟩
  hints := none
  author := .null
  created := .null
  modified := .null

def loopedSession : Session := { heap := loopedHeap }

theorem loopedHeap_closed : loopedSession.heap.Closed := by decide

theorem loopedHeap_holds : loopedSession.heap.Holds (.ref ⟨5⟩) := by decide

theorem loopedHeap_separate : loopedSession.heap.Separate ⟨0⟩ :=
  Heap.separate_of_owner (fun r => if r.index ≤ 2 then 2 else r.index) rfl (by decide) (by decide)

theorem loopedHeap_nested :
    loopedSession.heap.Nested loopedSession.heap.depths.resolve [] loopedPrompt.body := by
  have hn : loopedSession.heap.Nested 4 [] loopedPrompt.body := by decide
  have hle : 4 ≤ loopedSession.heap.depths.resolve := by decide
  exact hn.mono hle

theorem loopedPrompt_stored : loopedPrompt.Stored loopedSession.heap :=
  ⟨by decide, by decide, fun _ hm => by cases hm⟩

theorem loopedPrompt_plain : loopedPrompt.Plain loopedSession.heap :=
  ⟨⟨"looped", Heap.text_text _ _⟩, fun _ hm => by cases hm⟩

theorem loopedHeap_check : Body.check loopedSession.heap loopedPrompt.body = .ok ⟨[], []⟩ := rfl

theorem loopedHeap_lookup (path : String) : ∃ o,
    loopedSession.heap.lookup path (.ref ⟨5⟩) = .ok o ∧
      ∀ v, o = some v → ∃ u, loopedSession.heap.render v = .ok u := by
  have hm : loopedSession.heap.mapping? (.ref ⟨5⟩) =
      some (.entries [(.text "a", .text "${b.c}")]) := rfl
  obtain ⟨o, ho, ht⟩ := Heap.lookup_of_texts hm (by decide) path
  exact ⟨o, ho, fun v hv => Heap.render_of_text (ht v hv)⟩

theorem loopedHeap_copyable : loopedSession.heap.Copyable loopedPrompt.body :=
  .of_elements (by decide)

theorem loopedHeap_entry {i : Nat} (hi : i < 4) : loopedSession.heap.IsFilledEntry ⟨0⟩ i := by
  have hall : ∀ i < 4, i ∈ Walk.entryIndices loopedSession.heap ⟨0⟩ := by decide
  exact Walk.mem_entryIndices.1 (hall i hi)

open Classical in
/-- A body with a loop is resolved. The texts of its entries and those that its context leads to are
replaced, once each: the text that stands for a placeholder here holds another, which stays. The
names declared are left as they are. -/
theorem resolve_looped : ∃ payload s' m,
    (resolve false (some loopedPrompt) (.ref ⟨5⟩)).run.run loopedSession = (.ok payload, s') ∧
      payload.content = .ref (m ⟨0⟩) ∧
      loopedSession.heap.IsFilledOnce (.ref ⟨5⟩) ⟨0⟩ s'.heap m ∧
      s'.heap.get? (m ⟨0⟩) = some (.dict [(.text "task", .text "Do ${b.c}"),
        (.text "instructions", .text "Use ${ b.c }"), (.text "context", .ref (m ⟨1⟩)),
        (.text "output_format", .ref (m ⟨3⟩)), (.text "variables", .ref (m ⟨4⟩))]) ∧
      s'.heap.get? (m ⟨2⟩) =
        some (.list [.text "${b.c} and ${z}", .ref (m ⟨1⟩), .int 7]) ∧
      s'.heap.get? (m ⟨4⟩) = some (.list [.text "a", .text "d", .text "${a}"]) := by
  obtain ⟨payload, s', m, hrun, hcontent, hk⟩ :
      ∃ payload s' m, (resolve false (some loopedPrompt) (.ref ⟨5⟩)).run.run loopedSession =
        (.ok payload, s') ∧ payload.content = .ref (m ⟨0⟩) ∧
          loopedSession.heap.IsFilledOnce (.ref ⟨5⟩) ⟨0⟩ s'.heap m :=
    resolve_isFilledOnce loopedHeap_closed loopedPrompt_stored
      loopedPrompt_plain loopedHeap_holds rfl loopedHeap_check rfl loopedHeap_nested
      loopedHeap_copyable loopedHeap_separate fun _ _ path _ => loopedHeap_lookup path
  have hfilled {t u : String} (h : loopedSession.heap.substitute (.ref ⟨5⟩) t = .ok u) :
      (Value.text t).fill (loopedSession.heap.filled (.ref ⟨5⟩)) = .text u :=
    congrArg Value.text (Heap.filled_eq h)
  have htask : loopedSession.heap.substitute (.ref ⟨5⟩) "Do ${a}" = .ok "Do ${b.c}" := by
    decide +kernel
  have huse : loopedSession.heap.substitute (.ref ⟨5⟩) "Use ${ b.c }" = .ok "Use ${ b.c }" := by
    decide +kernel
  have hboth : loopedSession.heap.substitute (.ref ⟨5⟩) "${a} and ${z}" =
      .ok "${b.c} and ${z}" := by
    decide +kernel
  have hentry (i : Nat) (hi : i < 4) : loopedSession.heap.Live ⟨0⟩ ⟨0⟩ i :=
    .inl ⟨rfl, loopedHeap_entry hi⟩
  have hitem (i : Nat) : loopedSession.heap.Live ⟨0⟩ ⟨2⟩ i :=
    .inr ⟨by decide, 2, loopedHeap_entry (by decide), [0], rfl⟩
  have hdeclared : ¬ loopedSession.heap.IsFilledEntry ⟨0⟩ 4 := by
    rw [← Walk.mem_entryIndices]
    decide
  have hroot : loopedSession.heap.get? ⟨0⟩ = some (.dict [(.text "task", .text "Do ${a}"),
      (.text "instructions", .text "Use ${ b.c }"), (.text "context", .ref ⟨1⟩),
      (.text "output_format", .ref ⟨3⟩), (.text "variables", .ref ⟨4⟩)]) := rfl
  have hitems : loopedSession.heap.get? ⟨2⟩ =
      some (.list [.text "${a} and ${z}", .ref ⟨1⟩, .int 7]) := rfl
  have hlist : loopedSession.heap.Reaches (.ref ⟨0⟩) ⟨2⟩ := ⟨[.slot 2, .slot 0], rfl⟩
  refine ⟨payload, s', m, hrun, hcontent, hk, ?_, ?_, ?_⟩
  · refine (hk.node ⟨0⟩ _ ⟨[], rfl⟩ hroot).trans ?_
    simp [Node.map, Node.mapSlots, Value.map, hentry, hfilled htask, hfilled huse,
      Value.fill_of_asText?_none (Value.asText?_ref _)]
  · refine (hk.node ⟨2⟩ _ hlist hitems).trans ?_
    simp [Node.map, Node.mapSlots, Value.map, hitem, hfilled hboth,
      Value.fill_of_asText?_none (Value.asText?_ref _),
      Value.fill_of_asText?_none (rfl : (Value.int 7).asText? = none)]
  · exact hk.declared 4 ⟨4⟩ _ hdeclared ⟨[], rfl⟩ rfl

/-- What a resolution notes of a body whose entries share nothing: the paths of the placeholders met
on a depth-first walk through the entries that are filled, in order of first occurrence, and then
the names declared that are not among them. -/
theorem resolve_used (hc : s.heap.Closed) (hp : p.Stored s.heap) (hv : s.heap.Holds values)
    (hbody : p.body = .ref b) (hs : s.heap.Separate b)
    (hrun : (resolve reporting (some p) values).run.run s = (.ok payload, s')) :
    payload.used.Nodup ∧
    payload.used =
      ((s.heap.tour [] (s.heap.filledEntries b)).flatMap placeholderPaths).eraseDups ++
        ((p.declared s.heap).filter fun name =>
          name ∉ (s.heap.tour [] (s.heap.filledEntries b)).flatMap placeholderPaths).eraseDups := by
  obtain ⟨b', es, m, hb', hes, -, -, hused⟩ :=
    resolve_eq_ok hc hp hv (hbody ▸ hs.apart_body) hrun
  obtain rfl := Value.ref.inj (hbody.symm.trans hb')
  obtain ⟨hu, -⟩ := hused (hs.once _)
  have hmet : s.heap.metPaths b =
      (s.heap.tour [] (s.heap.filledEntries b)).flatMap placeholderPaths := by
    rw [Heap.metPaths, ← List.flatMap_assoc, hs.flatMap_tour hes]
  rw [hmet] at hu
  refine ⟨hu ▸ Walk.nodup_addNew (Walk.nodup_addNew List.nodup_nil), ?_⟩
  rw [hu, Walk.addNew_eq, Walk.addNew_eq []]
  simp [List.mem_eraseDups]

theorem loopedHeap_tour : loopedSession.heap.tour [] (loopedSession.heap.filledEntries ⟨0⟩) =
    ["Do ${a}", "Use ${ b.c }", "${a} and ${z}"] := by
  change loopedSession.heap.tour []
    [.text "Do ${a}", .text "Use ${ b.c }", .ref ⟨1⟩, .ref ⟨3⟩] = _
  have hopen₁ : loopedSession.heap.open? ⟨1⟩ = some loopedHeap.nodes[1] := rfl
  have hopen₂ : loopedSession.heap.open? ⟨2⟩ = some loopedHeap.nodes[2] := rfl
  have hopen₃ : loopedSession.heap.open? ⟨3⟩ = some loopedHeap.nodes[3] := rfl
  have hcontext : loopedSession.heap.tour [] [.ref ⟨1⟩, .ref ⟨3⟩] =
      loopedSession.heap.tour [⟨1⟩] [.ref ⟨2⟩, .ref ⟨1⟩, .ref ⟨3⟩] :=
    Heap.tour_enter List.not_mem_nil hopen₁
  have hitems : loopedSession.heap.tour [⟨1⟩] [.ref ⟨2⟩, .ref ⟨1⟩, .ref ⟨3⟩] =
      loopedSession.heap.tour [⟨2⟩, ⟨1⟩]
        [.text "${a} and ${z}", .ref ⟨1⟩, .int 7, .ref ⟨1⟩, .ref ⟨3⟩] :=
    Heap.tour_enter (by decide) hopen₂
  have hformat : loopedSession.heap.tour [⟨2⟩, ⟨1⟩] [.ref ⟨3⟩] =
      loopedSession.heap.tour [⟨3⟩, ⟨2⟩, ⟨1⟩] [] :=
    Heap.tour_enter (by decide) hopen₃
  rw [Heap.tour_text rfl, Heap.tour_text rfl, hcontext, hitems, Heap.tour_text rfl,
    Heap.tour_skip rfl rfl, Heap.tour_skip rfl rfl, Heap.tour_skip rfl rfl, hformat, Heap.tour_nil]

theorem resolve_used_looped : ∃ payload s',
    (resolve false (some loopedPrompt) (.ref ⟨5⟩)).run.run loopedSession = (.ok payload, s') ∧
      payload.used = ["a", "b.c", "z", "d", "${a}"] := by
  have hf : ∀ t, loopedSession.heap.Fills (.ref ⟨5⟩) t := fun t =>
    Heap.substitute_total fun path _ => loopedHeap_lookup path
  obtain ⟨payload, s', hrun⟩ := resolve_total false loopedHeap_closed
    loopedPrompt_stored loopedPrompt_plain loopedHeap_holds loopedHeap_separate.apart_body
    loopedHeap_check rfl loopedHeap_nested loopedHeap_copyable fun _ _ => .inr hf
  refine ⟨payload, s', hrun, ?_⟩
  rw [(resolve_used loopedHeap_closed loopedPrompt_stored loopedHeap_holds rfl loopedHeap_separate
    hrun).2, loopedHeap_tour]
  decide +kernel

end Action

end Promptbook
