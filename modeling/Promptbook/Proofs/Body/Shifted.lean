import Promptbook.Proofs.Body.Resolved
import Promptbook.Proofs.Heap.Shifted
import Promptbook.Proofs.Prompt.Parts

namespace Promptbook

variable {a d : Nat} {h k : Heap} {m : Ref → Ref}

theorem Node.slotCount_map (m : Ref → Ref) (node : Node) :
    (node.map m).slotCount = node.slotCount := by
  cases node <;> simp [map, slotCount]

theorem Heap.Renamed.open?_eq (hm : Renamed m h k) (r : Ref) :
    k.open? (m r) = (h.open? r).map (Node.map m) := by
  rw [open?, open?, hm.get?_eq]
  cases h.get? r with
  | none => rfl
  | some node => cases node <;> rfl

namespace Walk

variable {values v : Value} {w x : Walk} {n : Nat}
  {step step' : Value → Walk → Except Fault (Value × Walk)}

structure Shifted (a d : Nat) (w x : Walk) : Prop where
  heap : Heap.Aligned a d w.heap x.heap
  used : x.used = w.used
  visited : x.visited = w.visited.map (Ref.later a d)

def FillsAlike (a d : Nat) (step step' : Value → Walk → Except Fault (Value × Walk)) : Prop :=
  ∀ v w x, Shifted a d w x →
    Matched (fun p q => q.1 = p.1.map (Ref.later a d) ∧ Shifted a d p.2 q.2)
      (step v w) (step' (v.map (Ref.later a d)) x)

theorem setSlot_map (m : Ref → Ref) (node : Node) (i : Nat) (v : Value) :
    (node.map m).setSlot i (v.map m) = (node.setSlot i v).map m := by
  cases node with
  | list xs => simp only [Node.map, Node.setSlot, List.map_set]
  | dict es =>
    simp only [Node.map, Node.setSlot]
    congr 1
    apply List.ext_getElem?
    intro j
    simp only [List.getElem?_map, List.getElem?_modify]
    cases es[j]? with
    | none => rfl
    | some e => by_cases hij : i = j <;> simp [hij]
  | _ => rfl

theorem Shifted.write (hw : Shifted a d w x) (r : Ref) (i : Nat) (v : Value) :
    Shifted a d { w with heap := w.heap.setSlot r i v }
      { x with heap := x.heap.setSlot (r.later a d) i (v.map (Ref.later a d)) } := by
  refine ⟨?_, hw.used, hw.visited⟩
  simp only [Heap.setSlot, hw.heap.renamed.get?_eq]
  cases w.heap.get? r with
  | none => exact hw.heap
  | some node =>
    simp only [Option.map_some, setSlot_map]
    exact hw.heap.set r _

theorem FillsAlike.eachSlot (hstep : FillsAlike a d step step') (r : Ref) (is : List Nat)
    (hw : Shifted a d w x) :
    Matched (Shifted a d) (eachSlot step r is w) (eachSlot step' (r.later a d) is x) := by
  induction is generalizing w x with
  | nil => exact .ok hw
  | cons i is ih =>
    have hslot : ((x.heap.get? (r.later a d)).bind fun node => node.slot? i) =
        ((w.heap.get? r).bind fun node => node.slot? i).map (Value.map (Ref.later a d)) := by
      rw [hw.heap.renamed.get?_eq]
      cases w.heap.get? r with
      | none => rfl
      | some node => exact Node.slot?_map _ node i
    rw [Walk.eachSlot, Walk.eachSlot, hslot]
    cases (w.heap.get? r).bind fun node => node.slot? i with
    | none => exact ih hw
    | some v =>
      apply (hstep v w x hw).bind
      intro p q hpq
      obtain ⟨u, w'⟩ := p
      obtain ⟨u', x'⟩ := q
      obtain ⟨rfl, hw'⟩ := hpq
      exact ih (hw'.write r i u)

theorem fillsAlike (values : Value) (n : Nat) :
    FillsAlike a d (fillWithin values n) (fillWithin (values.map (Ref.later a d)) n) := by
  induction n with
  | zero => exact fun _ _ _ _ => .error _
  | succ n ih =>
    intro v w x hw
    rw [fillWithin, fillWithin, Value.asText?_map, Value.asRef?_map]
    cases ht : v.asText? with
    | some s =>
      simp only [hw.heap.renamed.substitute_eq hw.heap.depths]
      cases w.heap.substitute values s with
      | error e => exact .error e
      | ok t => exact .ok ⟨rfl, hw.heap, congrArg (addNew · _) hw.used, hw.visited⟩
    | none =>
      cases hr : v.asRef? with
      | none => exact .ok ⟨rfl, hw⟩
      | some r =>
        simp only [Option.map_some, hw.heap.renamed.open?_eq, hw.visited]
        cases w.heap.open? r with
        | none => exact .ok ⟨rfl, hw⟩
        | some node =>
          simp only [Option.map_some, hw.heap.renamed.mem_iff, Node.slotCount_map]
          by_cases hin : r ∈ w.visited
          · simp only [hin, ↓reduceIte]
            exact .ok ⟨rfl, hw⟩
          · simp only [hin, ↓reduceIte]
            have hentered : Shifted a d { w with visited := r :: w.visited }
                { x with visited := r.later a d :: x.visited } :=
              ⟨hw.heap, hw.used, congrArg (List.cons _) hw.visited⟩
            rw [← hw.visited]
            apply (ih.eachSlot r (List.range node.slotCount) hentered).bind
            intro w' x' hw'
            exact .ok ⟨rfl, hw'⟩

theorem entryIndices_shifted (hs : Heap.Renamed m h k) (b : Ref) :
    entryIndices k (m b) = entryIndices h b := by
  rw [entryIndices, entryIndices, hs.get?_eq]
  cases h.get? b with
  | none => rfl
  | some node =>
    cases node with
    | dict es =>
      simp only [Option.map_some, Node.map, List.length_map, List.getElem?_map]
      apply List.filter_congr
      intro i _
      cases es[i]? with
      | none => rfl
      | some e => simp only [Option.map_some, Option.bind_some, Value.asText?_map]
    | _ => rfl

theorem fillEntries_shifted (values : Value) (b : Ref) (hw : Shifted a d w x) :
    Matched (Shifted a d) (fillEntries values b w)
      (fillEntries (values.map (Ref.later a d)) (b.later a d) x) := by
  rw [fillEntries, fillEntries, entryIndices_shifted hw.heap.renamed, hw.heap.depths]
  apply FillsAlike.eachSlot _ b _ hw
  intro v w' x' hw'
  exact fillsAlike values _ v _ _ ⟨hw'.heap, hw'.used, rfl⟩

end Walk

theorem Body.isFilledText_map (m : Ref → Ref) (v : Value) :
    isFilledText (v.map m) = isFilledText v := by
  rw [isFilledText, isFilledText, Value.asText?_map]

theorem Body.check_renamed (hm : Heap.Renamed m h k) (body : Value) :
    check k (body.map m) = check h body := by
  simp only [check, hm.mapping?_eq, hm.truthy_eq, hm.truth_eq]
  cases h.mapping? body with
  | none => rfl
  | some d =>
    cases h.truthy body with
    | false => rfl
    | true =>
      simp only [Option.map_some, Mapping.field_map, map_bind, isFilledText_map, hm.isMapping_eq,
        hm.isList_eq]

namespace Prompt

variable {p : Prompt} {values : Value}

theorem declared_renamed (hm : Heap.Renamed m h k) (p : Prompt) :
    (p.map m).declared k = p.declared h := by
  simp only [declared, map, hm.dict?_eq]
  cases h.dict? p.body with
  | none => rfl
  | some es =>
    simp only [Option.map_some, lookupText_map]
    cases lookupText "variables" es with
    | none => rfl
    | some v =>
      simp only [Option.map_some, Option.bind_some, hm.list?_eq]
      cases h.list? v with
      | none => rfl
      | some xs =>
        simp only [Option.map_some, List.filterMap_map, Function.comp_def, Value.asText?_map]

inductive FilledAlike (a d : Nat) : Filling → Filling → Prop
  | escaped (cause : Fault) : FilledAlike a d (.escaped cause) (.escaped cause)
  | rejected (errors : List String) : FilledAlike a d (.rejected errors) (.rejected errors)
  | failed (cause : Fault) : FilledAlike a d (.failed cause) (.failed cause)
  | filled (content : Value) (used : List String) {h k : Heap} : Heap.Aligned a d h k →
      FilledAlike a d (.filled content used h) (.filled (content.map (Ref.later a d)) used k)

theorem fillChecked_shifted (hs : Heap.Aligned a d h k) (p : Prompt) (values : Value) :
    FilledAlike a d (p.fillChecked h values)
      ((p.map (Ref.later a d)).fillChecked k (values.map (Ref.later a d))) := by
  rw [fillChecked, fillChecked, declared_renamed hs.renamed]
  simp only [map]
  obtain ⟨e, hx, hy⟩ | ⟨⟨content, copied⟩, ⟨_, copied'⟩, hx, hy, rfl, hs'⟩ :=
    (Heap.copy_shifted hs p.body).inv
  · simp only [hx, hy]
    exact .escaped e
  · have hs' : Heap.Aligned a d copied copied' := hs'
    simp only [hx, hy]
    cases content with
    | ref r =>
      have hstart : Walk.Shifted a d ⟨copied, [], []⟩ ⟨copied', [], []⟩ := ⟨hs', rfl, rfl⟩
      simp only [Value.map_ref]
      obtain ⟨e, hx, hy⟩ | ⟨w, w', hx, hy, hw⟩ :=
        (Walk.fillEntries_shifted values r hstart).inv
      · simp only [hx, hy]
        exact .failed e
      · simp only [hx, hy, hw.used]
        exact .filled (.ref r) _ hw.heap
    | _ => exact .failed _

theorem fill_shifted (hs : Heap.Aligned a d h k) (p : Prompt) (values : Value) :
    FilledAlike a d (p.fill h values)
      ((p.map (Ref.later a d)).fill k (values.map (Ref.later a d))) := by
  rw [fill, fill]
  simp only [map, Body.check_renamed hs.renamed]
  cases Body.check h p.body with
  | error e => exact .escaped e
  | ok verdict =>
    simp only []
    split
    · exact fillChecked_shifted hs p values
    · exact .rejected _

end Prompt

theorem Hints.map_later {hints : Option Hints}
    (hv : ∀ m, hints = some m → ∀ v ∈ [m.languages, m.context, m.notes, m.legacy], h.Holds v) :
    hints.map (Hints.map (Ref.later h.nodes.size d)) = hints := by
  cases hints with
  | none => rfl
  | some m => exact congrArg some (Hints.map_eq_self fun v hmem => (hv m rfl v hmem).map_later)

namespace Action

theorem copyHints_shifted (hs : Heap.Aligned a d h k) (hints : Option Hints) :
    Matched (fun x y => y.1 = x.1.map (Ref.later a d) ∧ Heap.Aligned a d x.2 y.2)
      (copyHints hints h) (copyHints (hints.map (Hints.map (Ref.later a d))) k) := by
  cases hints with
  | none =>
    obtain ⟨hs₁, hlanguages⟩ := hs.store (.list [])
    obtain ⟨hs₂, hcontext⟩ := hs₁.store (.list [])
    refine .ok ⟨?_, hs₂⟩
    have hmade (h : Heap) : (Hints.none h).1 = ⟨(h.store (.list [])).1,
        ((h.store (.list [])).2.store (.list [])).1, .null, .bool false⟩ := rfl
    rw [hmade, hmade, Hints.map, ← hlanguages, ← hcontext]
    rfl
  | some hints =>
    have hstart : Heap.Copying.Shifted a d ⟨h, []⟩ ⟨k, []⟩ := ⟨hs, rfl⟩
    rw [Option.map_some, copyHints, copyHints, hs.depths]
    apply ((Heap.copiesAlike_copyWithin _).each
      [hints.languages, hints.context, hints.notes, hints.legacy] hstart).bind
    intro x y hxy
    obtain ⟨vs, s⟩ := x
    obtain ⟨_, t⟩ := y
    obtain ⟨rfl, hst⟩ := hxy
    obtain _ | ⟨_, _ | ⟨_, _ | ⟨_, _ | ⟨_, _ | _⟩⟩⟩⟩ := vs
    case cons.cons.cons.cons.nil => exact .ok ⟨rfl, hst.heap⟩
    all_goals exact .ok ⟨rfl, hs⟩

theorem copyHints_isOk (he : h.Extends k) (hc : h.Closed)
    (hv : ∀ m, hints = some m → ∀ v ∈ [m.languages, m.context, m.notes, m.legacy], h.Holds v) :
    (∃ r, copyHints hints k = .ok r) ↔ ∃ r, copyHints hints h = .ok r := by
  have hcopy := copyHints_shifted (Heap.Aligned.start hc he) hints
  rw [Hints.map_later hv] at hcopy
  obtain ⟨e, hh, hk⟩ | ⟨x, y, hh, hk, -⟩ := hcopy.inv
  · rw [hh, hk]
  · rw [hh, hk]
    exact iff_of_true ⟨y, rfl⟩ ⟨x, rfl⟩

end Action

end Promptbook
