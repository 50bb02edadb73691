import Promptbook.Proofs.Body.Found
import Promptbook.Proofs.Body.Untouched
import Promptbook.Proofs.Prompt.Equal

namespace Promptbook

theorem Ref.exists_shift (a d d' : Nat) : ∃ m : Ref → Ref,
    (∀ r : Ref, m (r.later a d) = r.later a d') ∧ ∀ r, r.index < a → m r = r := by
  have hback (r : Ref) : Function.invFun (Ref.later a d) (r.later a d) = r :=
    Function.leftInverse_invFun (Ref.later_injective a d) r
  refine ⟨Ref.later a d' ∘ Function.invFun (Ref.later a d), fun r => ?_, fun r hr => ?_⟩
  · rw [Function.comp_apply, hback]
  · have hback := hback r
    rw [Ref.later_of_lt hr] at hback
    rw [Function.comp_apply, hback, Ref.later_of_lt hr]

namespace Heap

/-- Two sets of variables say the same at a path: it leads nowhere in either, or to values that are
written alike. -/
inductive AgreeAt (h : Heap) (values values' : Value) (path : String) : Prop
  | nowhere : h.lookup path values = .ok none → h.lookup path values' = .ok none →
      AgreeAt h values values' path
  | written {v v' : Value} : h.lookup path values = .ok (some v) →
      h.lookup path values' = .ok (some v') → h.render v = h.render v' →
      AgreeAt h values values' path

variable {h : Heap} {values values' : Value} {s : String}

theorem AgreeAt.written_eq {path : String} (hp : h.AgreeAt values values' path) :
    h.written values' path = h.written values path := by
  cases hp with
  | nowhere hl hl' => simp only [Heap.written, hl, hl']
  | written hl hl' hr => simp only [Heap.written, hl, hl', ok_bind, hr]

theorem substitute_congr (hs : ∀ path ∈ placeholderPaths s, h.AgreeAt values values' path) :
    h.substitute values' s = h.substitute values s :=
  substitute_eq_of_written fun path hpath => (hs path hpath).written_eq

end Heap

namespace Walk

variable {h k : Heap} {values values' v : Value} {b r : Ref} {root node : Node} {w : Walk}
  {done is all : List Nat} {m : Ref → Ref} {es : List (Value × Value)}
  {step step' : Value → Walk → Except Fault (Value × Walk)}

theorem Passes.eachSlot_congr (hstep : Passes h values k step)
    (hw : Inside h values k r node done w) (hr : h.get? r = none)
    (hslots : ∀ x ∈ node.slots, h.Fresh k x) (his : is.Nodup) (hdone : ∀ i ∈ is, i ∉ done)
    (hsame : ∀ x ∈ node.slots, ∀ w, Stands h k w → step' x w = step x w) :
    Walk.eachSlot step' r is w = Walk.eachSlot step r is w := by
  induction is generalizing w done with
  | nil => rfl
  | cons i is ih =>
    obtain ⟨hi, his⟩ := List.nodup_cons.1 his
    simp only [List.forall_mem_cons] at hdone
    have hdone' := not_done_cons hi hdone.2
    simp only [Walk.eachSlot, hw.slot_eq hdone.1]
    cases hx : node.slot? i with
    | none => exact ih (hw.pass_by hx) his hdone'
    | some x =>
      have hmem : x ∈ node.slots := Node.mem_slots.2 ⟨i, hx⟩
      simp only [hsame x hmem w hw.stands]
      cases hv : step x w with
      | error e => rfl
      | ok p => exact ih (hstep.slot hw hr hx (hslots x hmem) hv).1 his hdone'

theorem fillWithin_congr (hc : h.Closed) (hv : h.Holds values) (hv' : h.Holds values') {n : Nat}
    (hs : Stands h k w) (hf : h.Fresh k v)
    (hsame : ∀ s, k.Meets v s → h.substitute values' s = h.substitute values s) :
    fillWithin values' n v w = fillWithin values n v w := by
  induction n generalizing v w with
  | zero => rfl
  | succ n ih =>
    rw [fillWithin, fillWithin]
    cases ht : v.asText? with
    | some s =>
      simp only [hs.keeps.substitute_eq hc hv, hs.keeps.substitute_eq hc hv', hsame s (.here ht)]
    | none =>
      cases hr : v.asRef? with
      | none => rfl
      | some r =>
        obtain rfl := Value.asRef?_eq_some.1 hr
        by_cases hin : r ∈ w.visited
        · simp only [hin, ↓reduceIte]
        · -- What has not been visited stands as at the start, so its texts are the body's own.
          have hopen : w.heap.open? r = k.open? r := by rw [Heap.open?, Heap.open?, hs.ahead r hin]
          simp only [hopen, hin, ↓reduceIte]
          cases ho : k.open? r with
          | none => rfl
          | some node =>
            have hnode := (Heap.open?_eq_some.1 ho).1
            have hslots : ∀ x ∈ node.slots, ∀ w, Stands h k w →
                fillWithin values' n x w = fillWithin values n x w := by
              intro x hx w hs
              obtain ⟨i, hi⟩ := Node.mem_slots.1 hx
              exact ih hs (hf.slot hnode hx) fun s hm => hsame s (.head hnode hi hm)
            simp only [(passes_fillWithin hc hv n).eachSlot_congr (hs.inside hin hnode)
              (hf r node (.refl k r) ho) (fun x hx => hf.slot hnode hx) List.nodup_range
              (fun _ _ => List.not_mem_nil) hslots]

/-- The walks from some places of a body with other variables do the same, if no container with a
placeholder is entered twice and each text of the body at the start is filled alike. -/
theorem Between.entries_congr {n : Nat} (hst : Stage h values k b root) (hv' : h.Holds values')
    (hw : Between h values k b root done w) (ho : k.Once b all) (his : is.Nodup)
    (hdone : ∀ i ∈ is, i ∉ done) (hsub : ∀ j ∈ done, j ∈ all) (hall : ∀ i ∈ is, i ∈ all)
    (hslots : ∀ i ∈ is, ∃ x, root.slot? i = some x)
    (hsame : ∀ i ∈ is, ∀ x, root.slot? i = some x → ∀ s, k.Meets x s →
      h.substitute values' s = h.substitute values s) :
    eachSlot (fun v w => fillWithin values' n v { w with visited := [] }) b is w =
      eachSlot (fun v w => fillWithin values n v { w with visited := [] }) b is w := by
  induction is generalizing w done with
  | nil => rfl
  | cons i is ih =>
    obtain ⟨hi, his⟩ := List.nodup_cons.1 his
    simp only [List.forall_mem_cons] at hdone hall hslots hsame
    have hdone' := not_done_cons hi hdone.2
    obtain ⟨⟨x, hx⟩, hslots⟩ := hslots
    have hmem : x ∈ root.slots := Node.mem_slots.2 ⟨i, hx⟩
    have hstart : Stands h w.heap { w with visited := [] } := ⟨hw.keeps, fun _ _ => rfl⟩
    have hentry := fillWithin_congr (n := n) hst.closed hst.holds hv' hstart (hw.fresh hst hmem)
      fun s hm => hsame.1 x hx s ((hw.meets_iff hst ho hsub hall.1 hdone.1 hx).1 hm)
    simp only [eachSlot, hw.slot_eq hdone.1, hx, hentry]
    cases hrun : fillWithin values n x { w with visited := [] } with
    | error e => rfl
    | ok p =>
      exact ih (hw.entry hst hx hrun).1 his hdone' (List.forall_mem_cons.2 ⟨hall.1, hsub⟩) hall.2
        hslots hsame.2

theorem Ready.fillEntries_congr (hr : Ready h values b es) (hv' : h.Holds values')
    (hcopy : h.IsCopy k m (.ref b) (.ref (m b))) (ho : h.Once b (entryIndices h b))
    (hsame : ∀ i ∈ entryIndices h b, ∀ x, (Node.dict es).slot? i = some x → ∀ s, h.Meets x s →
      h.substitute values' s = h.substitute values s) :
    fillEntries values' (m b) ⟨k, [], []⟩ = fillEntries values (m b) ⟨k, [], []⟩ := by
  have hst := hr.stage hcopy
  have hm := hr.mirrors hcopy
  rw [fillEntries, fillEntries, hr.entryIndices_eq hcopy]
  refine (hst.start hcopy.keeps [] []).entries_congr hst hv' (hr.once hcopy ho)
    (nodup_entryIndices h b) (fun _ _ => List.not_mem_nil) (List.forall_mem_nil _)
    (fun _ hi => hi) ?_ ?_
  · intro i hi
    obtain ⟨x, hx⟩ := slot?_of_mem_entryIndices hr.here hi
    exact ⟨x.map m, by rw [Node.slot?_map, hx]; rfl⟩
  · intro i hi y hy s hs
    rw [Node.slot?_map, Option.map_eq_some_iff] at hy
    obtain ⟨x, hx, rfl⟩ := hy
    have hmem : x ∈ (Node.dict es).slots := Node.mem_slots.2 ⟨i, hx⟩
    rw [hm.meets_iff hcopy.same_texts (hr.alike hmem) (Value.asText?_map m x)] at hs
    exact hsame i hi x hx s hs

end Walk

namespace Prompt

variable {h k : Heap} {p q : Prompt} {values values' : Value} {b : Ref} {a d : Nat}

theorem fill_of_body (hq : q.body = p.body) (h : Heap) (values : Value) :
    q.fill h values = p.fill h values := by
  simp only [fill, fillChecked, declared, hq]

theorem fill_congr (hc : h.Closed) (hv : h.Holds values) (hv' : h.Holds values')
    (hbody : p.body = .ref b) (hs : h.Separate b)
    (hsame : ∀ t, h.Uses b t → h.substitute values' t = h.substitute values t) :
    p.fill h values' = p.fill h values := by
  rw [fill, fill]
  cases hcheck : Body.check h p.body with
  | error cause => rfl
  | ok verdict =>
    simp only []
    split
    · next haccepts =>
      obtain ⟨b', es, hb', hb⟩ := Body.dict_of_check hcheck haccepts
      obtain rfl := Value.ref.inj (hbody.symm.trans hb')
      have hready : Walk.Ready h values b es := ⟨hc, hv, hb, hs.apart_body b _ rfl hb⟩
      rw [fillChecked, fillChecked, hbody]
      cases hcopy : h.copy (.ref b) with
      | error cause => rfl
      | ok wk =>
        obtain ⟨w, k⟩ := wk
        obtain ⟨m, hm⟩ := Heap.isCopy_of_copy hc hready.holds_body hcopy
        obtain rfl : w = .ref (m b) := hm.value
        have hentries := hready.fillEntries_congr hv' hm (hs.once _) fun i hi x hx t ht =>
          hsame t ((Heap.uses_iff hb).2 ⟨i, hi, x, hx, ht⟩)
        simp only [hentries]
    · rfl

/-- A body is filled alike wherever its containers and those of the variables are put, and whether
or not an empty dictionary stands for no variables. -/
theorem fill_supplied (hc : h.Closed) (hp : h.Holds p.body) (hv : h.Holds values)
    (hbody : p.body = .ref b) (hs : h.Separate b) (he : h.Extends k) (hk : k.Closed) :
    FilledAlike h.nodes.size ((k.supply values).2.nodes.size - h.nodes.size) (p.fill h values)
      (p.fill (k.supply values).2 (k.supply values).1) := by
  have hext := he.trans (k.extends_supply values)
  have hsupplied : p.fill (k.supply values).2 values =
      p.fill (k.supply values).2 (k.supply values).1 := by
    apply fill_congr (k.closed_supply hk values) (k.holds_supply (he.holds hv)) (hext.holds hv)
      hbody (hext.separate hc (hbody ▸ hp) hs)
    intro t _
    rw [Heap.substitute_supply, (k.extends_supply values).substitute_eq hk (he.holds hv)]
  have hshifted := fill_shifted (Heap.Aligned.start hc hext) p values
  rwa [hv.map_later, fill_of_body (q := p.map _) hp.map_later, hsupplied] at hshifted

def Yields (h : Heap) (p : Prompt) (values : Value) (payload : Payload) (l : Heap) : Prop :=
  ∃ k, p.fill h values = .filled payload.content payload.used k ∧ (∃ t, k.text p.id = .ok t) ∧
    Action.copyHints p.hints k = .ok (payload.hints, l)

variable {g l l' : Heap} {x y : Payload} {content : Value} {used : List String}

theorem FilledAlike.of_filled {filled : Filling}
    (hf : FilledAlike a d (.filled content used h) filled) :
    ∃ k, filled = .filled (content.map (Ref.later a d)) used k ∧ Heap.Aligned a d h k := by
  cases hf with
  | filled content used hs => exact ⟨_, rfl, hs⟩

theorem FilledAlike.to_filled {filled : Filling}
    (hf : FilledAlike a d filled (.filled content used k)) :
    ∃ base h, filled = .filled base used h ∧ content = base.map (Ref.later a d) ∧
      Heap.Aligned a d h k := by
  cases hf with
  | filled base used hs => exact ⟨base, _, rfl, rfl, hs⟩

section Places

variable (hp : p.Stored g)
  (hf : FilledAlike g.nodes.size d (p.fill h values) (p.fill k values'))
include hp hf

theorem Yields.later (hy : p.Yields h values x l) :
    ∃ l', p.Yields k values' (x.map (Ref.later g.nodes.size d)) l' ∧
      Heap.Aligned g.nodes.size d l l' := by
  obtain ⟨k₀, hfill, ⟨id, hid⟩, hcopy⟩ := hy
  rw [hfill] at hf
  obtain ⟨k₁, hfill', hs⟩ := hf.of_filled
  have hcopies := Action.copyHints_shifted hs p.hints
  rw [Hints.map_later hp.hints, hcopy] at hcopies
  obtain ⟨_, he, -⟩ | ⟨_, ⟨hints, l'⟩, he, hcopy', hhints, hl⟩ := hcopies.inv
  · cases he
  · cases he
    obtain rfl : hints = x.hints.map _ := hhints
    refine ⟨l', ⟨k₁, hfill', ⟨id, ?_⟩, hcopy'⟩, hl⟩
    rw [← hid, ← hs.renamed.text_eq p.id, hp.id.map_later]

theorem Yields.earlier (hy : p.Yields k values' y l') :
    ∃ x l, p.Yields h values x l ∧ y = x.map (Ref.later g.nodes.size d) ∧
      Heap.Aligned g.nodes.size d l l' := by
  obtain ⟨k₁, hfill', ⟨id, hid⟩, hcopy'⟩ := hy
  rw [hfill'] at hf
  obtain ⟨base, k₀, hfill, hcontent, hs⟩ := hf.to_filled
  have hcopies := Action.copyHints_shifted hs p.hints
  rw [Hints.map_later hp.hints, hcopy'] at hcopies
  obtain ⟨_, -, he⟩ | ⟨⟨hints, l⟩, _, hcopy, he, hhints, hl⟩ := hcopies.inv
  · cases he
  · cases he
    refine ⟨⟨base, hints, y.used⟩, l, ⟨k₀, hfill, ⟨id, ?_⟩, hcopy⟩, ?_, hl⟩
    · rw [← hid, ← hs.renamed.text_eq p.id, hp.id.map_later]
    · rw [Payload.map, ← hcontent, ← hhints]

end Places

end Prompt

namespace Payload

def Reaches (h : Heap) (x : Payload) (r : Ref) : Prop :=
  ∃ v ∈ x.parts, h.Reaches v r

/-- Leading the references of a payload elsewhere makes it another payload of another heap, and makes
what it reaches what the other one reaches. -/
structure EqualUnder (m : Ref → Ref) (h : Heap) (x : Payload) (k : Heap) (y : Payload) : Prop where
  fields : y = x.map m
  node : ∀ r node, x.Reaches h r → h.get? r = some node → k.get? (m r) = some (node.map m)
  apart : Set.InjOn m { r | x.Reaches h r }

theorem map_map (m m' : Ref → Ref) (x : Payload) : (x.map m).map m' = x.map (m' ∘ m) := by
  simp only [map, Hints.map, Value.map_map]

theorem parts_map (m : Ref → Ref) (x : Payload) : (x.map m).parts = x.parts.map (Value.map m) := by
  simp only [parts, Hints.parts, map, Hints.map, List.map_cons, List.map_nil]

/-- A payload in two heaps that hold the containers of a third one under other names. -/
theorem equalUnder_of_renamed {m₁ m₂ m : Ref → Ref} {l h k : Heap} (h₁ : Heap.Renamed m₁ l h)
    (h₂ : Heap.Renamed m₂ l k) (hm : ∀ r, m (m₁ r) = m₂ r) (x : Payload) :
    EqualUnder m h (x.map m₁) k (x.map m₂) := by
  have hcomp : m ∘ m₁ = m₂ := funext hm
  have hreached (r : Ref) (hr : (x.map m₁).Reaches h r) : ∃ q, r = m₁ q := by
    obtain ⟨v, hv, hr⟩ := hr
    rw [parts_map] at hv
    obtain ⟨u, -, rfl⟩ := List.mem_map.1 hv
    obtain ⟨q, rfl, -⟩ := h₁.reached hr
    exact ⟨q, rfl⟩
  refine ⟨by rw [map_map, hcomp], fun r node hr hn => ?_, fun r hr t ht he => ?_⟩
  · obtain ⟨q, rfl⟩ := hreached r hr
    rw [h₁.get?_eq, Option.map_eq_some_iff] at hn
    obtain ⟨old, hold, rfl⟩ := hn
    rw [hm, h₂.get?_eq, hold, Option.map_some, Node.map_map, hcomp]
  · obtain ⟨q, rfl⟩ := hreached r hr
    obtain ⟨q', rfl⟩ := hreached t ht
    rw [hm, hm] at he
    rw [h₂.injective he]

end Payload

namespace Action

variable {p : Prompt} {values values' : Value} {payload : Payload} {s t u : Session}
  {reporting : Bool} {b : Ref} {l : Heap} {text : String}

theorem run_resolvePrompt_iff :
    (∃ t, (resolvePrompt reporting p values).run.run s = (.ok payload, t) ∧ t.heap = l) ↔
      p.Yields s.heap values payload l := by
  constructor
  · rintro ⟨t, hrun, rfl⟩
    obtain ⟨k, hfill, hcopy⟩ := resolvePrompt_eq_ok hrun
    refine ⟨k, hfill, ?_, hcopy⟩
    obtain ⟨lines, hrun'⟩ := run_filled reporting hfill
    cases hid : k.text p.id with
    | ok id => exact ⟨id, rfl⟩
    | error e =>
      rw [hid, hrun] at hrun'
      cases hrun'
  · rintro ⟨k, hfill, hid, hcopy⟩
    exact resolvePrompt_total reporting hfill hid hcopy

/-- If a prompt is resolved with some variables, it is resolved with others that say the same at each
path that its body refers to, here or where containers have been added; and the payloads are equal.
They share what was there. -/
theorem resolve_referenced (hc : s.heap.Closed) (hp : p.Stored s.heap) (hv : s.heap.Holds values)
    (hv' : s.heap.Holds values') (hbody : p.body = .ref b) (hs : s.heap.Separate b)
    (hagree : ∀ t, s.heap.Uses b t → ∀ path ∈ placeholderPaths t,
      s.heap.AgreeAt values values' path)
    (hrun : (resolve reporting (some p) values).run.run s = (.ok payload, t))
    (hu : s.heap.Adds u.heap) :
    ∃ payload' t' m, (resolve reporting (some p) values').run.run u = (.ok payload', t') ∧
      (∀ r node, s.heap.get? r = some node → m r = r) ∧
      Payload.EqualUnder m t.heap payload t'.heap payload' := by
  rw [run_resolve] at hrun
  have hyields := run_resolvePrompt_iff.1 ⟨t, hrun, rfl⟩
  obtain ⟨base, l, hbase, rfl, hl⟩ := hyields.earlier hp
    (Prompt.fill_supplied hc hp.body hv hbody hs (.refl s.heap) hc)
  have hsame : p.fill s.heap values' = p.fill s.heap values :=
    Prompt.fill_congr hc hv hv' hbody hs fun t ht => Heap.substitute_congr (hagree t ht)
  have hbase' : p.Yields s.heap values' base l := by rwa [Prompt.Yields, hsame]
  obtain ⟨l', hyields', hl'⟩ := hbase'.later hp
    (Prompt.fill_supplied hc hp.body hv' hbody hs hu.keeps hu.closed)
  obtain ⟨t', hrun', rfl⟩ := run_resolvePrompt_iff (s := u.supplied values').2 hyields'
  obtain ⟨m, hm, hfirst⟩ := Ref.exists_shift s.heap.nodes.size
    ((s.heap.supply values).2.nodes.size - s.heap.nodes.size)
    ((u.heap.supply values').2.nodes.size - s.heap.nodes.size)
  exact ⟨_, t', m, run_resolve.trans hrun', fun r node hr => hfirst r (Heap.index_lt_of_get? hr),
    Payload.equalUnder_of_renamed hl.renamed hl'.renamed hm base⟩

/-- The places of a prompt whose context contains itself, and of two sets of variables. They say the
same at the paths of the body, one of them with a text that holds a placeholder, and differ at
others. -/
def variedSession : Session where
  heap := ((loopedHeap.store (.dict [(.text "a", .bool true), (.text "z", .text "${b.c}")])).2.store
    (.dict [(.text "z", .text "${b.c}"), (.text "b", .text "c"), (.text "a", .text "true"),
      (.text "d", .null)])).2

theorem variedSession_extends : loopedHeap.Extends variedSession.heap :=
  (Heap.Extends.alloc _ _).trans (.alloc _ _)

theorem variedSession_paths (ht : variedSession.heap.Uses ⟨0⟩ text) :
    ∀ path ∈ placeholderPaths text, path ∈ ["a", "b.c", "z"] := by
  have hholds : loopedHeap.Holds (.ref ⟨0⟩) := by decide
  rw [variedSession_extends.uses_iff loopedHeap_closed hholds] at ht
  have hmem := ht.mem_tour
  have htour := loopedHeap_tour
  rw [loopedSession] at htour
  rw [htour] at hmem
  have hpaths : ∀ text ∈ ["Do ${a}", "Use ${ b.c }", "${a} and ${z}"],
      ∀ path ∈ placeholderPaths text, path ∈ ["a", "b.c", "z"] := by decide +kernel
  exact hpaths text hmem

theorem resolve_referenced_varied : ∃ payload t payload' t' m,
    (resolve false (some loopedPrompt) (.ref ⟨6⟩)).run.run variedSession = (.ok payload, t) ∧
      (resolve false (some loopedPrompt) (.ref ⟨7⟩)).run.run t = (.ok payload', t') ∧
      Payload.EqualUnder m t.heap payload t'.heap payload' := by
  have hext := variedSession_extends
  have hc : variedSession.heap.Closed := by decide
  have hv : variedSession.heap.Holds (.ref ⟨6⟩) := by decide
  have hv' : variedSession.heap.Holds (.ref ⟨7⟩) := by decide
  have hbody : loopedHeap.Holds (.ref ⟨0⟩) := by decide
  have hp := loopedPrompt_stored.mono hext
  have hs := hext.separate loopedHeap_closed hbody loopedHeap_separate
  have hlook : ∀ path ∈ ["a", "b.c", "z"], ∃ o,
      variedSession.heap.lookup path (.ref ⟨6⟩) = .ok o ∧
        ∀ v, o = some v → ∃ u, variedSession.heap.render v = .ok u := by
    simp only [List.forall_mem_cons]
    refine ⟨⟨some (.bool true), rfl, ?_⟩, ⟨none, rfl, by rintro _ ⟨⟩⟩,
      ⟨some (.text "${b.c}"), rfl, ?_⟩, List.forall_mem_nil _⟩
    all_goals
      intro v hv
      cases hv
      exact ⟨_, rfl⟩
  have hagree : ∀ path ∈ ["a", "b.c", "z"],
      variedSession.heap.AgreeAt (.ref ⟨6⟩) (.ref ⟨7⟩) path := by
    simp only [List.forall_mem_cons]
    exact ⟨.written rfl rfl rfl, .nowhere rfl rfl, .written rfl rfl rfl, List.forall_mem_nil _⟩
  obtain ⟨payload, t, hrun⟩ := resolve_total false hc hp
    (loopedPrompt_plain.mono loopedPrompt_stored loopedHeap_closed hext) hv hs.apart_body
    ((Body.check_eq hext loopedHeap_closed hbody).trans loopedHeap_check) rfl
    (hext.nested loopedHeap_closed hbody loopedHeap_nested)
    (hext.copyable loopedHeap_closed hbody loopedHeap_copyable) fun b hb => by
      cases hb
      exact .inl ⟨hs.once _, fun text ht => Heap.substitute_total fun path hpath =>
        hlook path (variedSession_paths ht path hpath)⟩
  obtain ⟨b, es, m, -, -, -, hfilled, -⟩ := resolve_eq_ok hc hp hv hs.apart_body hrun
  obtain ⟨payload', t', m', hrun', -, hequal⟩ := resolve_referenced hc hp hv hv' rfl hs
    (fun text ht path hpath => hagree path (variedSession_paths ht path hpath)) hrun
    ⟨hfilled.keeps, hfilled.closed⟩
  exact ⟨payload, t, payload', t', m', hrun, hrun', hequal⟩

end Action

end Promptbook
