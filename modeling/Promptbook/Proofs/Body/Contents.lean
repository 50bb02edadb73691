import Promptbook.Proofs.Body.Filling
import Promptbook.Proofs.Heap.Expansion

namespace Promptbook

namespace Value

/-- What a value shows without what it refers to. A text is the same whatever its type. -/
def plain (v : Value) : Value :=
  match v.asText? with
  | some s => text s
  | none => v.map fun _ => ⟨0⟩

variable {v : Value} {s : String}

theorem plain_of_asText? (hv : v.asText? = some s) : v.plain = text s := by
  rw [plain, hv]

end Value

namespace Node

def outline : Node → Node
  | list xs => list (xs.map fun _ => .null)
  | tuple xs => tuple (xs.map fun _ => .null)
  | set xs => set (xs.map fun _ => .null)
  | dict es => dict (es.map fun _ => (.null, .null))
  | sealed ks msg => sealed ks msg

@[simp] theorem outline_map (m : Ref → Ref) (node : Node) :
    (node.map m).outline = node.outline := by
  cases node <;> simp [map, outline, Function.comp_def]

@[simp] theorem outline_mapSlots (g : Nat → Value → Value) (node : Node) :
    (node.mapSlots g).outline = node.outline := by
  cases node <;> simp [mapSlots, outline]

end Node

/-- What happens to the value that a step leads to if those at numbered places are changed. -/
def Step.change (g : Nat → Value → Value) : Step → Value → Value
  | slot i, v => g i v
  | hidden _, v => v

theorem Node.step?_mapSlots (g : Nat → Value → Value) (node : Node) (st : Step) :
    (node.mapSlots g).step? st = (node.step? st).map (st.change g) := by
  cases st with
  | slot i => exact slot?_mapSlots g node i
  | hidden i =>
    change (node.mapSlots g).hidden? i = (node.hidden? i).map fun v => v
    rw [hidden?_mapSlots, Option.map_id_fun', id]

namespace Heap

variable {h k k' : Heap} {values v w x : Value} {m mb mc : Ref → Ref} {b c q r t : Ref} {node : Node}
  {st : Step} {ρ σ : List Step} {i n : Nat} {s : String}

/-- What a value of a heap shows, and what the container that it refers to looks like when empty. -/
def face (h : Heap) (v : Value) : Value × Option Node :=
  (v.plain, (h.node? v).map Node.outline)

/-- Two values look the same wherever the same route leads in both. -/
def SameContent (h : Heap) (v : Value) (k : Heap) (w : Value) : Prop :=
  ∀ ρ, (h.follow ρ v).map h.face = (k.follow ρ w).map k.face

theorem face_of_not_ref (hv : v.asRef? = none) : h.face v = (v.plain, none) := by
  cases v <;> first | rfl | cases hv

theorem follow_cons_of_not_ref (hv : v.asRef? = none) : h.follow (st :: ρ) v = none := by
  cases v <;> first | rfl | cases hv

noncomputable def timesFilled (h : Heap) (b r : Ref) (i : Nat) : Nat :=
  if r = b then if i ∈ Walk.entryIndices h b then 1 else 0
  else h.timesEntered b (Walk.entryIndices h b) r

theorem refill_eq_iterate (v : Value) : h.refill values b r i v =
    (Value.fill (h.filled values))^[h.timesFilled b r i] v := by
  rw [refill, timesFilled]
  split
  · split <;> rfl
  · rfl

theorem asRef?_refill (v : Value) : (h.refill values b r i v).asRef? = v.asRef? := by
  rw [refill_eq_iterate, Value.asRef?_iterate_fill]

theorem asText?_refill (hv : v.asText? = some s) : (h.refill values b r i v).asText? =
    some ((h.filled values)^[h.timesFilled b r i] s) := by
  rw [refill_eq_iterate, Value.asText?_iterate_fill, hv, Option.map_some]

theorem refill_of_not_text (hv : v.asText? = none) : h.refill values b r i v = v := by
  rw [refill_eq_iterate]
  exact Function.iterate_fixed (Value.fill_of_asText?_none hv) _

theorem asRef?_change (st : Step) (v : Value) :
    (st.change (h.refill values b r) v).asRef? = v.asRef? := by
  cases st with
  | slot i => exact asRef?_refill v
  | hidden i => rfl

theorem change_ref (st : Step) (q : Ref) : st.change (h.refill values b r) (.ref q) = .ref q :=
  Value.asRef?_eq_some.1 (asRef?_change st (.ref q))

namespace IsFilling

variable (hk : h.IsFilling values b k m)
include hk

theorem follow_cons (hr : h.Reaches (.ref b) r) (hn : h.get? r = some node) :
    k.follow (st :: ρ) (.ref (m r)) =
      (node.step? st).bind fun u => k.follow ρ (st.change (h.refill values b r) (u.map m)) := by
  rw [follow, node?_ref, hk.node r node hr hn, Option.bind_some, Node.step?_mapSlots,
    Node.step?_map, Option.map_map, Option.bind_map]
  rfl

theorem face_ref (hr : h.Reaches (.ref b) r) (hn : h.get? r = some node) :
    k.face (.ref (m r)) = (.ref ⟨0⟩, some node.outline) := by
  rw [face, node?_ref, hk.node r node hr hn, Option.map_some, Node.outline_mapSlots,
    Node.outline_map]
  rfl

theorem follow_ref (hr : h.Reaches (.ref b) r) (hq : h.follow ρ (.ref r) = some (.ref q)) :
    k.follow ρ (.ref (m r)) = some (.ref (m q)) := by
  induction ρ generalizing r with
  | nil =>
    cases hq
    rfl
  | cons st ρ ih =>
    obtain ⟨_, node, u, ⟨⟩, hn, hu, hq⟩ := follow_cons_eq_some.1 hq
    rw [hk.follow_cons hr hn, hu, Option.bind_some]
    have hus : ∃ t, u = .ref t := by
      cases ρ with
      | nil => exact ⟨q, Option.some.inj hq⟩
      | cons st ρ =>
        obtain ⟨t, _, _, he, -⟩ := follow_cons_eq_some.1 hq
        exact ⟨t, he⟩
    obtain ⟨t, rfl⟩ := hus
    rw [Value.map_ref, change_ref]
    exact ih (hr.tail hn hu) hq

theorem face_slot (hr : h.follow σ (.ref b) = some (.ref r)) (hn : h.get? r = some node)
    (hx : node.slot? i = some x) (hs : x.asText? = some s) :
    (k.follow (σ ++ [.slot i]) (.ref (m b))).map k.face =
      some (.text ((h.filled values)^[h.timesFilled b r i] s), none) := by
  have hstep : node.step? (.slot i) = some x := hx
  have htext : (h.refill values b r i (x.map m)).asText? =
      some ((h.filled values)^[h.timesFilled b r i] s) :=
    asText?_refill ((Value.asText?_map m x).trans hs)
  have hleaf : (h.refill values b r i (x.map m)).asRef? = none := by
    rw [asRef?_refill]
    cases x <;> first | rfl | cases hs
  rw [follow_append, hk.follow_ref (.refl h b) hr, Option.bind_some, hk.follow_cons ⟨σ, hr⟩ hn,
    hstep, Option.bind_some, follow_nil, Option.map_some]
  exact congrArg some ((face_of_not_ref hleaf).trans (by rw [Value.plain_of_asText? htext]))

end IsFilling

def FilledAlike (h : Heap) (values : Value) (m : Ref → Ref) (b c : Ref) : Prop :=
  ∀ q node i x s, h.Reaches (.ref c) q → h.get? q = some node → node.slot? i = some x →
    x.asText? = some s →
    (h.filled values)^[h.timesFilled b (m q) i] s = (h.filled values)^[h.timesFilled c q i] s

variable (hx : h.Expands m b c) (hc : h.Closed) (hh : h.Holds (.ref c))
include hx hc hh

theorem Expands.reaches_image (hq : h.Reaches (.ref c) q) : h.Reaches (.ref b) (m q) := by
  obtain ⟨σ, hσ⟩ := hq
  exact ⟨σ, hx.follow_of_exists hc hh hσ⟩

theorem FilledAlike.follow_eq (ha : h.FilledAlike values m b c) (hb : h.IsFilling values b k mb)
    (hf : h.IsFilling values c k' mc) (hq : h.Reaches (.ref c) q) :
    (k.follow ρ (.ref (mb (m q)))).map k.face = (k'.follow ρ (.ref (mc q))).map k'.face := by
  obtain ⟨node, hn⟩ := hc.reached hh hq
  have hreach := hx.reaches_image hc hh hq
  have hn' := hx.origin q node hq hn
  induction ρ generalizing q node with
  | nil =>
    rw [follow_nil, follow_nil, Option.map_some, Option.map_some, hb.face_ref hreach hn',
      hf.face_ref hq hn, Node.outline_map]
  | cons st ρ ih =>
    rw [hb.follow_cons hreach hn', hf.follow_cons hq hn, Node.step?_map]
    cases hu : node.step? st with
    | none => rfl
    | some u =>
      rw [Option.map_some, Option.bind_some, Option.bind_some]
      cases hr : u.asRef? with
      | some t =>
        obtain rfl := Value.asRef?_eq_some.1 hr
        have ht := hq.tail hn hu
        obtain ⟨node', hnode'⟩ := hc.reached hh ht
        rw [Value.map_ref, Value.map_ref, Value.map_ref, change_ref, change_ref]
        exact ih ht node' hnode' (hx.reaches_image hc hh ht) (hx.origin t node' ht hnode')
      | none =>
        have hmap (l : Ref → Ref) : u.map l = u := Value.map_eq_self fun r he => by
          rw [he] at hr
          cases hr
        rw [hmap, hmap, hmap]
        cases ρ with
        | cons st' ρ =>
          rw [follow_cons_of_not_ref ((asRef?_change st u).trans hr),
            follow_cons_of_not_ref ((asRef?_change st u).trans hr)]
          rfl
        | nil =>
          rw [follow_nil, follow_nil, Option.map_some, Option.map_some,
            face_of_not_ref ((asRef?_change st u).trans hr),
            face_of_not_ref ((asRef?_change st u).trans hr)]
          cases st with
          | hidden i => rfl
          | slot i =>
            simp only [Step.change]
            cases hs : u.asText? with
            | none => rw [refill_of_not_text hs, refill_of_not_text hs]
            | some s =>
              rw [Value.plain_of_asText? (asText?_refill hs),
                Value.plain_of_asText? (asText?_refill hs), ha q node i u s hq hn hu hs]

/-- A filled body looks like a filled expansion of it if and only if every text comes to the same in
both. -/
theorem sameContent_iff (hb : h.IsFilling values b k mb) (hf : h.IsFilling values c k' mc) :
    k.SameContent (.ref (mb b)) k' (.ref (mc c)) ↔ h.FilledAlike values m b c := by
  constructor
  · rintro hsame q node i x s ⟨σ, hσ⟩ hn hslot hs
    have hσ' := hx.follow_of_exists hc hh hσ
    have hn' := hx.origin q node ⟨σ, hσ⟩ hn
    have hslot' : (node.map m).slot? i = some (x.map m) := by rw [Node.slot?_map, hslot]; rfl
    have h₁ := hb.face_slot hσ' hn' hslot' ((Value.asText?_map m x).trans hs)
    have h₂ := hf.face_slot hσ hn hslot hs
    have := (h₁.symm.trans (hsame _)).trans h₂
    simpa using this
  · intro ha ρ
    have := ha.follow_eq hx hc hh hb hf (ρ := ρ) (.refl h c)
    rwa [hx.root] at this

end Heap

end Promptbook
