import Promptbook.Proofs.Action
import Promptbook.Proofs.Body.Filling
import Promptbook.Proofs.Heap.Parts
import Promptbook.Resolve

namespace Promptbook

namespace Heap

variable {h k : Heap} {values v w x : Value} {b r : Ref} {ρ : List Step} {i n : Nat}
  {entered : List Ref} {s : String}

namespace Extends

variable (he : h.Extends k) (hc : h.Closed)
include he hc

theorem entersBy_iff (hb : h.Holds (.ref b)) : k.EntersBy b i r ↔ h.EntersBy b i r := by
  simp only [EntersBy, he.follow_eq hc hb]

theorem mirrors (hv : h.Holds v) : h.Mirrors k id (h.Enters v) := by
  have hget : ∀ r, h.Enters v r → k.get? r = h.get? r := fun r hr =>
    he.get?_eq (hc.reached hv hr.reaches)
  refine ⟨fun _ _ _ _ he => he, fun r hr hn => ?_, fun r node hr hn => ?_⟩
  · rw [id, open?, hget r hr]
    exact hn
  · refine ⟨node, by rw [id, open?, hget r hr]; exact hn, List.forall₂_same.2 fun x hx => ?_⟩
    refine ⟨by rw [Option.map_id_fun, id], ?_⟩
    intro q heq
    subst heq
    obtain ⟨j, hj⟩ := Node.mem_slots.1 hx
    exact hr.tail (open?_eq_some.1 hn).1 hj

theorem same_texts (hv : h.Holds v) : h.SameTexts k id (h.Enters v) := by
  intro r node node' hr hn hn'
  rw [id, open?, he.get?_eq (hc.reached hv hr.reaches), ← open?, hn] at hn'
  cases hn'
  rfl

theorem tour_eq (hv : h.Holds v) : k.tour [] [v] = h.tour [] [v] := by
  have hseen : ∀ r ∈ ([] : List Ref), h.Enters v r := List.forall_mem_nil _
  exact (he.mirrors hc hv).tour_eq (he.same_texts hc hv) hseen (.cons (Walk.alike_self v) .nil) rfl

theorem timesEntered_eq (hb : h.Holds (.ref b)) (is : List Nat) :
    k.timesEntered b is r = h.timesEntered b is r :=
  List.countP_congr fun i _ => by simpa using he.entersBy_iff hc hb

end Extends

theorem Extends.entryIndices_eq (he : h.Extends k) (hb : h.Holds (.ref b)) :
    Walk.entryIndices k b = Walk.entryIndices h b := by
  rw [Walk.entryIndices, Walk.entryIndices, he.get?_eq (hb b rfl)]

/-- The variables that a body is filled with; null stands for none. -/
def supply (h : Heap) (values : Value) : Value × Heap :=
  if values = .null then h.store (.dict []) else (values, h)

theorem extends_supply (h : Heap) (values : Value) : h.Extends (h.supply values).2 := by
  rw [supply]
  split
  · exact .alloc h _
  · exact .refl h

theorem closed_supply (hc : h.Closed) (values : Value) : (h.supply values).2.Closed := by
  rw [supply]
  split
  · have hempty : ∀ v ∈ (Node.dict []).elements, h.Holds v := List.forall_mem_nil _
    exact hc.alloc hempty
  · exact hc

theorem holds_supply (hv : h.Holds values) : (h.supply values).2.Holds (h.supply values).1 := by
  rw [supply]
  split
  · intro _ heq
    cases heq
    exact ⟨_, get?_alloc h _⟩
  · exact hv

theorem lookup_null (h : Heap) (path : String) : h.lookup path .null = .ok none := by
  obtain ⟨name, names, hs⟩ := Text.exists_split_eq '.' path
  rw [lookup, hs]
  rfl

theorem substitute_supply (h : Heap) (values : Value) (s : String) :
    (h.supply values).2.substitute (h.supply values).1 s = h.substitute values s := by
  by_cases hv : values = .null
  · subst hv
    rw [supply, if_pos rfl, substitute_of_lookup_none, substitute_of_lookup_none h.lookup_null]
    intro path
    have hm : (h.store (.dict [])).2.mapping? (h.store (.dict [])).1 = some (.entries []) := by
      simp only [mapping?, store, node?_ref, get?_alloc]
    obtain ⟨name, names, hs⟩ := Text.exists_split_eq '.' path
    rw [lookup, hs, walk, hm]
    rfl
  · rw [supply, if_neg hv]

theorem filled_supply (h : Heap) (values : Value) :
    (h.supply values).2.filled (h.supply values).1 = h.filled values :=
  funext fun s => by rw [filled, filled, substitute_supply]

theorem Extends.truthy_eq (he : h.Extends k) (hv : h.Holds v) : k.truthy v = h.truthy v := by
  cases v <;> first | rfl | simp only [truthy, he.get?_eq (hv _ rfl)]

theorem Extends.truth_eq (he : h.Extends k) (hv : h.Holds v) : k.truth v = h.truth v := by
  cases v <;> first | rfl | simp only [truth_ref, he.truthy_eq hv]

theorem Extends.list?_eq (he : h.Extends k) (hv : h.Holds v) : k.list? v = h.list? v := by
  simp only [list?, he.node?_eq hv]

theorem Extends.dict?_eq (he : h.Extends k) (hv : h.Holds v) : k.dict? v = h.dict? v := by
  simp only [dict?, he.node?_eq hv]

theorem Closed.holds_field (hc : h.Closed) {m : Mapping} {name : String}
    (hm : h.mapping? v = some m) (hw : m.field name = .ok w) : h.Holds w := by
  rw [Mapping.field, map_eq_ok] at hw
  obtain ⟨o, ho, rfl⟩ := hw
  cases o with
  | none => exact holds_of_not_ref fun _ => (fun he => by cases he)
  | some w => exact hc.holds_get hm ho

end Heap

namespace Body

variable {h k : Heap} {body : Value}

theorem check_eq (he : h.Extends k) (hc : h.Closed) (hb : h.Holds body) :
    check k body = check h body := by
  simp only [check, he.mapping?_eq hb, he.truthy_eq hb, he.truth_eq hb]
  cases hm : h.mapping? body with
  | none => rfl
  | some m =>
    cases h.truthy body with
    | false => rfl
    | true =>
      have hheld (name : String) (w : Value) (hw : m.field name = .ok w) : h.Holds w :=
        hc.holds_field hm hw
      simp only [bind, Except.bind]
      cases m.field "task" with
      | error e => rfl
      | ok task =>
        cases m.field "instructions" with
        | error e => rfl
        | ok instructions =>
          cases hcontext : m.field "context" with
          | error e => rfl
          | ok context =>
            cases hformat : m.field "output_format" with
            | error e => rfl
            | ok format =>
              cases hdeclared : m.field "variables" with
              | error e => rfl
              | ok declared =>
                simp only [Heap.isMapping, Heap.isList, he.mapping?_eq (hheld _ _ hcontext),
                  he.mapping?_eq (hheld _ _ hformat), he.list?_eq (hheld _ _ hdeclared)]

end Body

namespace Prompt

variable {h k : Heap} {p : Prompt} {values : Value}

structure Stored (h : Heap) (p : Prompt) : Prop where
  id : h.Holds p.id
  body : h.Holds p.body
  hints : ∀ m, p.hints = some m →
    ∀ v ∈ [m.languages, m.context, m.notes, m.legacy], h.Holds v

/-- The parts of a prompt that are shown or copied along with its body can be. -/
structure Plain (h : Heap) (p : Prompt) : Prop where
  id : ∃ t, h.text p.id = .ok t
  hints : ∀ m, p.hints = some m →
    ∀ v ∈ [m.languages, m.context, m.notes, m.legacy],
      h.Nested h.depths.copy [] v ∧ h.Copyable v

theorem Stored.mono (hp : p.Stored h) (he : h.Extends k) : p.Stored k :=
  ⟨he.holds hp.id, he.holds hp.body, fun m hm v hv => he.holds (hp.hints m hm v hv)⟩

theorem Plain.mono (hp : p.Plain h) (hs : p.Stored h) (hc : h.Closed) (he : h.Extends k) :
    p.Plain k :=
  ⟨by rw [he.text_eq hc hs.id]; exact hp.id,
    fun m hm v hv =>
      have hheld := hs.hints m hm v hv
      (hp.hints m hm v hv).imp (fun hn => he.depths ▸ he.nested hc hheld hn)
        (he.copyable hc hheld)⟩

theorem declared_eq (he : h.Extends k) (hc : h.Closed) (hb : h.Holds p.body) :
    p.declared k = p.declared h := by
  rw [declared, declared, he.dict?_eq hb]
  cases hd : h.dict? p.body with
  | none => rfl
  | some es =>
    simp only []
    cases hv : lookupText "variables" es with
    | none => rfl
    | some v =>
      have hheld : h.Holds v := by
        have hm : h.mapping? p.body = some (.entries es) := by
          simp only [Heap.dict?, Heap.mapping?] at hd ⊢
          split at hd
          · rename_i es' hn
            cases hd
            rw [hn]
          · cases hd
        exact hc.holds_get hm (by rw [Mapping.get, hv])
      simp only [Option.bind_some, he.list?_eq hheld]

end Prompt

namespace Action

variable {h k : Heap} {p : Prompt} {values : Value} {hints : Option Hints} {copied : Hints}
  {payload : Payload} {s s' : Session} {reporting : Bool} {used : List String} {content : Value}

theorem copyHints_keeps (hc : h.Closed)
    (hv : ∀ m, hints = some m → ∀ v ∈ [m.languages, m.context, m.notes, m.legacy], h.Holds v)
    (hrun : copyHints hints h = .ok (copied, k)) : h.Extends k ∧ k.Closed := by
  cases hints with
  | none =>
    cases hrun
    have hempty (k : Heap) : ∀ v ∈ (Node.list []).elements, k.Holds v := List.forall_mem_nil _
    exact ⟨(Heap.Extends.alloc h _).trans (.alloc _ _), (hc.alloc (hempty h)).alloc (hempty _)⟩
  | some m =>
    simp only [copyHints, bind_eq_ok, Prod.exists] at hrun
    obtain ⟨vs, t, hcopy, hrun⟩ := hrun
    obtain ⟨hs, -⟩ := (Heap.copies_copyWithin hc _).each (Heap.Copying.sound_start (.refl h) hc)
      (hv m rfl) hcopy
    split at hrun
    · cases hrun
      exact ⟨hs.keeps, hs.closed⟩
    · cases hrun
      exact ⟨.refl h, hc⟩

theorem copyHints_total (hc : h.Closed)
    (hv : ∀ m, hints = some m → ∀ v ∈ [m.languages, m.context, m.notes, m.legacy], h.Holds v)
    (hn : ∀ m, hints = some m →
      ∀ v ∈ [m.languages, m.context, m.notes, m.legacy],
        h.Nested h.depths.copy [] v ∧ h.Copyable v) :
    ∃ copied k, copyHints hints h = .ok (copied, k) := by
  cases hints with
  | none => exact ⟨_, _, rfl⟩
  | some m =>
    have hstart := Heap.Copying.sound_start (.refl h) hc
    have hnone : Heap.Copying.Notes ⟨h, []⟩ [] := List.forall_mem_nil _
    obtain ⟨⟨vs, t⟩, hcopy⟩ := (Heap.copies_copyWithin hc h.depths.copy).each_total
      hstart hnone (hv m rfl) fun v hmem t ht hnotes =>
        have hcopies := hn m rfl v hmem
        Heap.copyWithin_total hc ht (hv m rfl v hmem) hcopies.1 hcopies.2 hnotes
    simp only [copyHints, hcopy, ok_bind]
    split
    all_goals exact ⟨_, _, rfl⟩

theorem resolvePrompt_eq_ok
    (hrun : (resolvePrompt reporting p values).run.run s = (.ok payload, s')) :
    ∃ k, p.fill s.heap values = .filled payload.content payload.used k ∧
      copyHints p.hints k = .ok (payload.hints, s'.heap) := by
  rw [resolvePrompt, run_bind_ok (run_get s)] at hrun
  cases hfill : p.fill s.heap values with
  | escaped cause =>
    rw [hfill] at hrun
    cases hrun
  | rejected errors =>
    rw [hfill] at hrun
    simp only [] at hrun
    split at hrun
    · obtain ⟨_, t, -, hrun⟩ := run_bind_eq_ok.1 hrun
      cases hrun
    · cases hrun
  | failed cause =>
    rw [hfill] at hrun
    simp only [] at hrun
    split at hrun
    · obtain ⟨_, t, -, hrun⟩ := run_bind_eq_ok.1 hrun
      obtain ⟨e, t', -, hrun⟩ := run_bind_eq_ok.1 hrun
      cases hrun
    · obtain ⟨e, t', -, hrun⟩ := run_bind_eq_ok.1 hrun
      cases hrun
  | filled content used k =>
    rw [hfill] at hrun
    simp only [] at hrun
    rw [run_bind_ok (run_setHeap k s)] at hrun
    obtain ⟨id, t, hid, hrun⟩ := run_bind_eq_ok.1 hrun
    obtain ⟨-, rfl⟩ := run_read_eq_ok.1 hid
    rw [run_bind_ok (run_log _ _ _)] at hrun
    obtain ⟨hints, t, hedit, hrun⟩ := run_bind_eq_ok.1 hrun
    obtain ⟨k', hcopy, rfl⟩ := run_edit_eq_ok.1 hedit
    cases hrun
    exact ⟨k, rfl, hcopy⟩

theorem resolvePrompt_total (reporting : Bool)
    (hfill : p.fill s.heap values = .filled content used h)
    (hid : ∃ t, h.text p.id = .ok t) (hcopy : copyHints p.hints h = .ok (copied, k)) :
    ∃ s', (resolvePrompt reporting p values).run.run s = (.ok ⟨content, copied, used⟩, s') ∧
      s'.heap = k := by
  obtain ⟨id, hid⟩ := hid
  rw [resolvePrompt, run_bind_ok (run_get s), hfill]
  simp only []
  rw [run_bind_ok (run_setHeap h s), run_bind_ok (run_read_eq_ok.2 ⟨hid, rfl⟩),
    run_bind_ok (run_log _ _ _), run_bind_ok (run_edit_eq_ok.2 ⟨k, hcopy, rfl⟩)]
  exact ⟨_, rfl, rfl⟩

end Action

namespace Heap

variable {h k k' : Heap} {values values' : Value} {b : Ref} {m : Ref → Ref} {is : List Nat}

/-- A text lies at the end of a route through lists and dictionaries from an entry of a body that is
filled. -/
def Uses (h : Heap) (b : Ref) (t : String) : Prop :=
  ∃ i, h.IsFilledEntry b i ∧ ∃ (is : List Nat) (x : Value),
    h.follow ((i :: is).map .slot) (.ref b) = some x ∧ x.asText? = some t

theorem uses_iff {root : Node} {t : String} (hb : h.get? b = some root) :
    h.Uses b t ↔
      ∃ i ∈ Walk.entryIndices h b, ∃ x, root.slot? i = some x ∧ h.Meets x t := by
  simp only [Walk.mem_entryIndices]
  constructor
  · rintro ⟨i, hi, is, y, hy, ht⟩
    obtain ⟨q, node, x, ⟨⟩, hq, hx, hy⟩ := follow_cons_eq_some.1 hy
    obtain rfl := Option.some.inj (hb.symm.trans hq)
    exact ⟨i, hi, x, hx, is, y, hy, ht⟩
  · rintro ⟨i, hi, x, hx, is, y, hy, ht⟩
    exact ⟨i, hi, is, y, follow_cons_eq_some.2 ⟨b, root, x, rfl, hb, hx, hy⟩, ht⟩

/-- A container is not entered from its own places. -/
def Apart (h : Heap) (v : Value) : Prop :=
  ∀ b root, v = .ref b → h.get? b = some root → ∀ x ∈ root.slots, ¬ h.Enters x b

namespace Extends

variable (he : h.Extends k) (hc : h.Closed) (hb : h.Holds (.ref b))
include he hc hb

theorem refill_eq (hf : k.filled values' = h.filled values) :
    k.refill values' b = h.refill values b := by
  funext r i v
  rw [refill, refill, hf, he.entryIndices_eq hb, he.timesEntered_eq hc hb]

theorem metPaths_eq : k.metPaths b = h.metPaths b := by
  rw [metPaths, metPaths, filledEntries, filledEntries, he.entryIndices_eq hb,
    he.get?_eq (hb b rfl)]
  apply List.flatMap_congr
  intro x hx
  obtain ⟨i, _, hi⟩ := List.mem_filterMap.1 hx
  obtain ⟨root, hroot, hi⟩ := Option.bind_eq_some_iff.1 hi
  rw [he.tour_eq hc (hc.holds_slot hroot hi)]

theorem uses_iff : k.Uses b s ↔ h.Uses b s := by
  simp only [Uses, ← Walk.mem_entryIndices, he.entryIndices_eq hb, he.follow_eq hc hb]

theorem once (ho : h.Once b is) : k.Once b is := by
  intro i hi j hj hij r node hir hjr hn
  rw [he.entersBy_iff hc hb] at hir hjr
  have hreach : h.Reaches (.ref b) r := by
    obtain ⟨js, hjs⟩ := hir
    exact ⟨_, hjs⟩
  rw [open?, he.get?_eq (hc.reached hb hreach)] at hn
  exact ho i hi j hj hij r node hir hjr hn

theorem isFilling (hf : k.filled values' = h.filled values)
    (hk : k.IsFilling values' b k' m) : h.IsFilling values b k' m := by
  refine ⟨he.trans hk.keeps, hk.closed, fun r node hr hn => ?_, fun r q hr hq => ?_,
    fun r node hr hn ho => ?_⟩
  · rw [hk.node r node (he.reaches hr) (he.keeps hn), he.refill_eq hc hb hf]
  · exact hk.injective r q (he.reaches hr) (he.reaches hq)
  · exact get?_eq_none_of_extends he (hk.fresh r node (he.reaches hr) (he.keeps hn) ho)

end Extends

theorem IsFilling.later (hk : h.IsFilling values b k m) (he : k.Extends k') (hc : k'.Closed) :
    h.IsFilling values b k' m :=
  ⟨hk.keeps.trans he, hc, fun r node hr hn => he.keeps (hk.node r node hr hn), hk.injective, hk.fresh⟩

end Heap

theorem Walk.ready_supply {h : Heap} {values : Value} {b : Ref} {es : List (Value × Value)}
    (hc : h.Closed) (hv : h.Holds values) (hb : h.get? b = some (.dict es))
    (ha : h.Apart (.ref b)) : Walk.Ready (h.supply values).2 (h.supply values).1 b es where
  closed := Heap.closed_supply hc values
  holds := Heap.holds_supply hv
  here := (h.extends_supply values).keeps hb
  apart x hx hxb := by
    obtain ⟨i, hi⟩ := Node.mem_slots.1 hx
    have hheld := hc.holds_slot hb hi
    exact ha b _ rfl hb x hx (((h.extends_supply values).enters_iff hc hheld).1 hxb)

theorem Prompt.fill_fills {h k : Heap} {p : Prompt} {values content : Value} {used : List String}
    {b : Ref} (hc : h.Closed) (hp : p.Stored h) (hv : h.Holds values) (hbody : p.body = .ref b)
    (ha : h.Apart p.body)
    (hfill : p.fill (h.supply values).2 (h.supply values).1 = .filled content used k) :
    ∀ t, h.Uses b t → h.Fills values t := by
  have he := h.extends_supply values
  simp only [Prompt.fill, Body.check_eq he hc hp.body] at hfill
  cases hcheck : Body.check h p.body with
  | error cause =>
    rw [hcheck] at hfill
    cases hfill
  | ok verdict =>
    rw [hcheck] at hfill
    simp only [] at hfill
    split at hfill
    · next haccepts =>
      obtain ⟨b', es, hbody', hb⟩ := Body.dict_of_check hcheck haccepts
      cases hbody.symm.trans hbody'
      have hbheld : h.Holds (.ref b) := hbody ▸ hp.body
      have hfills := Prompt.fillChecked_fills (Walk.ready_supply hc hv hb (hbody ▸ ha)) hbody hfill
      intro t ht
      rw [← he.uses_iff hc hbheld, Heap.uses_iff (he.keeps hb)] at ht
      obtain ⟨i, hi, x, hx, hm⟩ := ht
      have hfilled := hfills i hi x hx t hm
      rwa [Heap.Fills, Heap.substitute_supply] at hfilled
    · cases hfill

namespace Action

variable {p : Prompt} {values : Value} {payload : Payload} {s s' : Session} {reporting : Bool}

theorem run_resolve : (resolve reporting (some p) values).run.run s =
    (resolvePrompt reporting p (s.heap.supply values).1).run.run
      { s with heap := (s.heap.supply values).2 } := by
  by_cases hv : values = .null
  · simp only [resolve, Heap.supply, hv, ↓reduceIte]
    exact run_bind_ok (f := fun v => resolvePrompt reporting p v)
      (run_make (f := fun h => h.store (.dict [])))
  · simp only [resolve, Heap.supply, hv, ↓reduceIte]
    rfl

/-- A resolution that returns holds the filled copy of the body. If no container with a placeholder
is entered by way of two entries, it has noted the paths met and then the names declared. -/
theorem resolve_eq_ok (hc : s.heap.Closed) (hp : p.Stored s.heap) (hv : s.heap.Holds values)
    (ha : s.heap.Apart p.body)
    (hrun : (resolve reporting (some p) values).run.run s = (.ok payload, s')) :
    ∃ b es m, p.body = .ref b ∧ s.heap.get? b = some (.dict es) ∧ payload.content = .ref (m b) ∧
      s.heap.IsFilling values b s'.heap m ∧
      (s.heap.Once b (Walk.entryIndices s.heap b) →
        payload.used =
          Walk.addNew (Walk.addNew [] (s.heap.metPaths b)) (p.declared s.heap) ∧
        ∀ t, s.heap.Uses b t → s.heap.Fills values t) := by
  rw [run_resolve] at hrun
  obtain ⟨k, hfill, hhints⟩ := resolvePrompt_eq_ok hrun
  have he := s.heap.extends_supply values
  simp only [Prompt.fill, Body.check_eq he hc hp.body] at hfill
  cases hcheck : Body.check s.heap p.body with
  | error cause =>
    rw [hcheck] at hfill
    cases hfill
  | ok verdict =>
    rw [hcheck] at hfill
    simp only [] at hfill
    split at hfill
    · rename_i haccepts
      obtain ⟨b, es, hbody, hb⟩ := Body.dict_of_check hcheck haccepts
      have hbheld : s.heap.Holds (.ref b) := hbody ▸ hp.body
      have hready := Walk.ready_supply hc hv hb (hbody ▸ ha)
      obtain ⟨m, hcontent, hf, hused⟩ := Prompt.fillChecked_eq_filled hready hbody hfill
      have hkeeps := copyHints_keeps hf.closed
        (hp.mono (he.trans hf.keeps)).hints hhints
      refine ⟨b, es, m, hbody, hb, hcontent, ?_, fun ho => ?_⟩
      · exact (he.isFilling hc hbheld (s.heap.filled_supply values) hf).later hkeeps.1 hkeeps.2
      · rw [he.entryIndices_eq hbheld, he.metPaths_eq hc hbheld,
          Prompt.declared_eq he hc hp.body] at hused
        obtain ⟨hu, hmeets⟩ := hused (he.once hc hbheld ho)
        refine ⟨hu, fun t ht => ?_⟩
        rw [← he.uses_iff hc hbheld, Heap.uses_iff (he.keeps hb), he.entryIndices_eq hbheld] at ht
        obtain ⟨i, hi, x, hx, ht⟩ := ht
        have hfills := hmeets i hi x hx t ht
        rwa [Heap.Fills, Heap.substitute_supply] at hfills
    · cases hfill

theorem resolve_of_filled (reporting : Bool) {verdict : Verdict} {content : Value}
    {used : List String} {k : Heap} (hc : s.heap.Closed) (hp : p.Stored s.heap)
    (hplain : p.Plain s.heap) (hcheck : Body.check s.heap p.body = .ok verdict)
    (haccepts : verdict.accepts = true)
    (hfill : p.fillChecked (s.heap.supply values).2 (s.heap.supply values).1 =
      .filled content used k)
    (hkeeps : (s.heap.supply values).2.Extends k) (hclosed : k.Closed) :
    ∃ payload s', (resolve reporting (some p) values).run.run s = (.ok payload, s') := by
  have he := s.heap.extends_supply values
  have hext := he.trans hkeeps
  have hplain' := hplain.mono hp hc hext
  obtain ⟨copied, k', hcopy⟩ := copyHints_total hclosed (hp.mono hext).hints hplain'.hints
  have hfill' : p.fill (s.heap.supply values).2 (s.heap.supply values).1 =
      .filled content used k := by
    rw [Prompt.fill, Body.check_eq he hc hp.body, hcheck]
    simp only [haccepts, ↓reduceIte]
    exact hfill
  rw [run_resolve]
  obtain ⟨s', hs', -⟩ := resolvePrompt_total (s := { s with heap := (s.heap.supply values).2 })
    reporting hfill' hplain'.id hcopy
  exact ⟨_, s', hs'⟩

/-- A checked body that is nested below the limit is resolved if replacement fails in none of its
texts. -/
theorem resolve_total (reporting : Bool) {verdict : Verdict} (hc : s.heap.Closed)
    (hp : p.Stored s.heap) (hplain : p.Plain s.heap) (hv : s.heap.Holds values)
    (ha : s.heap.Apart p.body)
    (hcheck : Body.check s.heap p.body = .ok verdict) (haccepts : verdict.accepts = true)
    (hn : s.heap.Nested s.heap.depths.resolve [] p.body) (hcopies : s.heap.Copyable p.body)
    (hf : ∀ b, p.body = .ref b → s.heap.Once b (Walk.entryIndices s.heap b) ∧
      (∀ t, s.heap.Uses b t → s.heap.Fills values t) ∨ ∀ t, s.heap.Fills values t) :
    ∃ payload s', (resolve reporting (some p) values).run.run s = (.ok payload, s') := by
  have he := s.heap.extends_supply values
  obtain ⟨b, es, hbody, hb⟩ := Body.dict_of_check hcheck haccepts
  have hbheld : s.heap.Holds (.ref b) := hbody ▸ hp.body
  have hready := Walk.ready_supply hc hv hb (hbody ▸ ha)
  have hn' : (s.heap.supply values).2.Nested (s.heap.supply values).2.depths.resolve [] (.ref b) := by
    rw [he.depths]
    exact he.nested hc hbheld (hbody ▸ hn)
  have hcopies' := he.copyable hc hbheld (hbody ▸ hcopies)
  obtain ⟨content, used, k, hfill⟩ := Prompt.fillChecked_total hready hbody hn' hcopies' <| by
    simp only [Heap.Fills, Heap.substitute_supply]
    rcases hf b hbody with ⟨ho, hf⟩ | hf
    · refine .inl ⟨?_, fun i hi x hx t ht => hf t ?_⟩
      · rw [he.entryIndices_eq hbheld]
        exact he.once hc hbheld ho
      · rw [← he.uses_iff hc hbheld, Heap.uses_iff (he.keeps hb)]
        exact ⟨i, hi, x, hx, ht⟩
    · exact .inr hf
  obtain ⟨m, -, hfilled, -⟩ := Prompt.fillChecked_eq_filled hready hbody hfill
  exact resolve_of_filled reporting hc hp hplain hcheck haccepts hfill hfilled.keeps hfilled.closed

end Action

end Promptbook
