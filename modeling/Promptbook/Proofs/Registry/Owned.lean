import Promptbook.Proofs.Registry.Calls

namespace Promptbook.Session

open Registry

variable {s : Session} {calls done : List Call} {c : Call}

/-- No name is given to prompts of two ids, and none that is an id to a prompt of another. -/
def Owned (calls : List Call) : Prop :=
  ∀ n p m q, .register n p ∈ calls → .register m q ∈ calls →
    n.asText? = m.asText? ∨ n.asText? = idText q → idText p = idText q

def Given (calls : List Call) (t id : Option String) : Prop :=
  ∃ name p, .register name p ∈ calls ∧ name.asText? = t ∧ idText p = id

structure Homed (calls : List Call) (r : Registry) : Prop where
  named : ∀ t q, Entries.Under r.entries t q → t = idText q ∨ Given calls t (idText q)
  home : ∀ q, r.Registered q → Entries.Under r.entries (idText q) q

theorem homed_empty : Homed calls {} where
  named _ _ hu := (Entries.under_nil hu).elim
  home _ hq := by
    obtain ⟨e, he, -⟩ := hq
    cases he

section Homed

variable {h : Heap} {r : Registry} {name : Value} {p q : Prompt}

theorem Homed.keeper (hh : Homed calls r) (ho : Owned calls) (hp : Offered calls p)
    (hu : Entries.Under r.entries (idText p) q) : idText q = idText p := by
  rcases hh.named _ q hu with he | ⟨n, d, hd, hn, hid⟩
  · exact he.symm
  · obtain ⟨m, hm⟩ := hp
    exact hid.symm.trans (ho n d m p hd hm (.inr hn))

theorem Homed.fits (hh : Homed calls r) (ho : Owned calls) (hs : Stocked (Offered calls) r)
    (hp : .register name p ∈ calls) : r.Fits name p where
  keeper _ hu := hh.keeper ho ⟨name, hp⟩ hu
  others q hq hne := by
    obtain ⟨m, hm⟩ := hs.registered q hq
    exact ⟨_, hh.home q hq, fun he => hne (ho name p m q hp hm (.inr he.symm)).symm⟩
  same q hq _ he := .inl (he ▸ hh.home q hq)

theorem Homed.register (hh : Homed calls r) (ho : Owned calls) (hs : Stocked (Offered calls) r)
    (hK : Family (Offered calls)) (hn : name.Worded) (hp : .register name p ∈ calls) :
    Homed calls (r.register h name (some p)).1 where
  named t q hu := by
    rcases (under_register hK hs hn ⟨name, hp⟩).1 hu with ⟨rfl | rfl, rfl⟩ | ⟨-, -, hu⟩
    · exact .inr ⟨name, q, hp, rfl, rfl⟩
    · exact .inl rfl
    · rcases hu with ⟨hu, -⟩ | ⟨rfl, old, hold, hu⟩
      · exact hh.named t q hu
      · rw [← hh.keeper ho ⟨name, hp⟩ hold.1]
        exact hh.named t old hu
  home q hq := by
    have hunder := fun t d => under_register (h := h) (t := t) (q := d) hK hs hn ⟨name, hp⟩
    by_cases hqp : q = p
    · exact hqp ▸ (hunder _ p).2 (.inl ⟨.inr rfl, rfl⟩)
    · obtain ⟨t, ht⟩ := registered_iff.1 hq
      rcases (hunder t q).1 ht with ⟨-, he⟩ | ⟨-, -, ⟨hu, hr⟩ | ⟨he, -⟩⟩
      · exact (hqp he).elim
      · have hreg := registered_of_under hu
        have hhome := hh.home q hreg
        obtain ⟨m, hm⟩ := hs.registered q hreg
        have hid : idText q ≠ idText p := fun he => hr ⟨he ▸ hhome, hqp⟩
        have hname : idText q ≠ name.asText? := fun he =>
          hid (ho name p m q hp hm (.inr he.symm)).symm
        exact (hunder _ q).2 (.inr ⟨hname, hid, .inl ⟨hhome, hr⟩⟩)
      · exact (hqp he).elim

theorem Homed.remove (hh : Homed calls r) (hs : Stocked (Offered calls) r)
    (hK : Family (Offered calls)) (hp : r.Registered p) : Homed calls (r.remove h p) where
  named t q hu := hh.named t q ((under_remove hK hs (hs.registered p hp)).1 hu).1
  home q hq := by
    obtain ⟨hq, hne⟩ := (registered_remove hK hs (hs.registered p hp)).1 hq
    exact (under_remove hK hs (hs.registered p hp)).2 ⟨hh.home q hq, hne⟩

theorem Homed.step (hh : Homed calls r) (ho : Owned calls) (hs : Stocked (Offered calls) r)
    (hK : Family (Offered calls)) (hw : c.Worded) (hm : c ∈ calls) :
    Homed calls (c.step h r) := by
  cases c with
  | register name p => exact hh.register ho hs hK hw.1 hm
  | unregister name =>
    rcases unregister_cases (h := h) hs hw with he | ⟨p, hr, he⟩
    · rw [he]
      exact hh
    · rw [he]
      exact hh.remove hs hK hr
  | clear => exact homed_empty

end Homed

theorem Sensible.homed (hc : Sensible calls) (ho : Owned calls) (hr : s.registry = {})
    (hd : done <+: calls) : Homed calls (s.after done).registry := by
  induction done using List.reverseRecOn with
  | nil => exact hr ▸ homed_empty
  | append_singleton done c ih =>
    have hm : c ∈ calls := hd.subset (List.mem_append_right _ (List.mem_singleton.2 rfl))
    have hd' := (List.prefix_append done [c]).trans hd
    rw [after_registry]
    exact (ih hd').step ho (hc.stocked hr hd') hc.family (hc.worded c hm) hm

theorem Sensible.fits (hc : Sensible calls) (ho : Owned calls) (hr : s.registry = {})
    {name : Value} {p : Prompt} (hd : done ++ [.register name p] <+: calls) :
    (s.after done).registry.Fits name p := by
  have hd' := (List.prefix_append done [.register name p]).trans hd
  exact (hc.homed ho hr hd').fits ho (hc.stocked hr hd')
    (hd.subset (List.mem_append_right _ (List.mem_singleton.2 rfl)))

end Promptbook.Session
