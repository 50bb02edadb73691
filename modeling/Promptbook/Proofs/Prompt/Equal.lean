import Mathlib.Data.Set.Function
import Promptbook.Proofs.Heap.Shifted
import Promptbook.Proofs.Prompt.Parts

namespace Promptbook

theorem Value.map_map (m m' : Ref → Ref) (v : Value) : (v.map m).map m' = v.map (m' ∘ m) := by
  cases v <;> rfl

theorem Node.map_map (m m' : Ref → Ref) (node : Node) :
    (node.map m).map m' = node.map (m' ∘ m) := by
  cases node <;> simp only [map, List.map_map, Function.comp_def, Value.map_map]

namespace Prompt

variable {m m' : Ref → Ref} {l h k : Heap} {c p q : Prompt} {a d : Nat}

theorem map_map (m m' : Ref → Ref) (p : Prompt) : (p.map m).map m' = p.map (m' ∘ m) := by
  simp only [map, Value.map_map, Options.map, Option.map_map]
  congr 1
  apply congrArg (Option.map · p.hints)
  funext hints
  simp only [Function.comp_def, Hints.map, Value.map_map]

theorem parts_map (m : Ref → Ref) (p : Prompt) : (p.map m).parts = p.parts.map (Value.map m) := by
  cases hp : p.hints with
  | none => simp [parts, map, Options.parts, Options.map, hp]
  | some hints => simp [parts, map, Options.parts, Options.map, Hints.parts, Hints.map, hp]

def Reaches (h : Heap) (p : Prompt) (r : Ref) : Prop :=
  ∃ v ∈ p.parts, h.Reaches v r

/-- Leading the references of a prompt elsewhere makes it another prompt of another heap in all but
its serial number, and makes what it reaches what the other one reaches. -/
structure EqualUnder (m : Ref → Ref) (h : Heap) (p : Prompt) (k : Heap) (q : Prompt) : Prop where
  fields : { q with serial := p.serial } = p.map m
  node : ∀ r node, p.Reaches h r → h.get? r = some node → k.get? (m r) = some (node.map m)
  apart : Set.InjOn m { r | p.Reaches h r }

/-- Prompts, each in a heap of its own, are equal if nothing tells them apart but where their
containers stand, and their serial numbers. -/
def Equal (h : Heap) (p : Prompt) (k : Heap) (q : Prompt) : Prop :=
  ∃ m, EqualUnder m h p k q

theorem Equal.extends {k' : Heap} (hp : Equal h p k q) (hk : k.Extends k') : Equal h p k' q := by
  obtain ⟨m, hfields, hnode, hapart⟩ := hp
  exact ⟨m, hfields, fun r node hr hn => hk.keeps (hnode r node hr hn), hapart⟩

theorem equal_of_shifted (hs : Heap.Shifted a d l h)
    (hq : { q with serial := c.serial } = c.map (Ref.later a d)) : Equal l c h q :=
  ⟨_, hq, fun r node _ hn => hs.node r node hn, (Ref.later_injective a d).injOn⟩

/-- All that a prompt reaches is there. -/
structure Held (h : Heap) (p : Prompt) : Prop where
  closed : h.Closed
  parts : ∀ v ∈ p.parts, h.Holds v

namespace EqualUnder

variable (hp : EqualUnder m l c h p) (hc : c.Held l)
include hp

theorem parts_eq : p.parts = c.parts.map (Value.map m) := by
  rw [← parts_map, ← hp.fields]
  rfl

include hc

theorem reached {r : Ref} (hr : p.Reaches h r) : ∃ r₀, r = m r₀ ∧ c.Reaches l r₀ := by
  obtain ⟨v, hv, hr⟩ := hr
  rw [hp.parts_eq] at hv
  obtain ⟨v₀, hv₀, rfl⟩ := List.mem_map.1 hv
  obtain ⟨r₀, hr₀, hreach⟩ := Heap.reached_map (fun r node hr => hp.node r node ⟨v₀, hv₀, hr⟩)
    hc.closed (hc.parts v₀ hv₀) hr
  exact ⟨r₀, hr₀, v₀, hv₀, hreach⟩

end EqualUnder

theorem Equal.both (hp : Equal l c h p) (hq : Equal l c k q) (hc : c.Held l) : Equal h p k q := by
  obtain ⟨m₁, hp⟩ := hp
  obtain ⟨m₂, hq⟩ := hq
  let m := m₂ ∘ Function.invFunOn m₁ { r | c.Reaches l r }
  have hm (r : Ref) (hr : c.Reaches l r) : m (m₁ r) = m₂ r :=
    congrArg m₂ (hp.apart.leftInvOn_invFunOn hr)
  have hpart (v : Value) (hv : v ∈ c.parts) : v.map (m ∘ m₁) = v.map m₂ :=
    Value.map_congr fun r he => hm r ⟨v, hv, he ▸ .refl l r⟩
  refine ⟨m, ?_, ?_, ?_⟩
  · have hmap : c.map m₂ = (c.map m₁).map m := by rw [map_map, map_congr hpart]
    rw [← hp.fields, ← hq.fields] at hmap
    exact congrArg (fun q => { q with serial := p.serial }) hmap
  · intro r node hr hn
    obtain ⟨r₀, rfl, v, hv, hreach⟩ := hp.reached hc hr
    have hr₀ : c.Reaches l r₀ := ⟨v, hv, hreach⟩
    obtain ⟨node₀, hn₀⟩ := hc.closed.reached (hc.parts v hv) hreach
    obtain rfl := Option.some.inj ((hp.node r₀ node₀ hr₀ hn₀).symm.trans hn)
    have helements : node₀.map (m ∘ m₁) = node₀.map m₂ := by
      refine Node.map_congr fun w hw => Value.map_congr fun r he => hm r ⟨v, hv, ?_⟩
      subst he
      obtain ⟨st, hst⟩ := Node.mem_elements.1 hw
      exact hreach.tail hn₀ hst
    rw [hm r₀ hr₀, Node.map_map, helements]
    exact hq.node r₀ node₀ hr₀ hn₀
  · intro r hr t ht he
    obtain ⟨r₀, rfl, hr₀⟩ := hp.reached hc hr
    obtain ⟨t₀, rfl, ht₀⟩ := hp.reached hc ht
    rw [hm r₀ hr₀, hm t₀ ht₀] at he
    rw [hq.apart hr₀ ht₀ he]

end Prompt

end Promptbook
