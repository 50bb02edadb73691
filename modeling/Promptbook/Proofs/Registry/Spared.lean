import Promptbook.Proofs.Outcome
import Promptbook.Proofs.Registry.Simulation

namespace Promptbook

open Entries (Under)

namespace Registry

variable {h : Heap} {r r' : Registry} {K : Prompt → Prop} {p q x : Prompt} {name key : Value}
  {n id : String}

def Leads (h : Heap) (r : Registry) (key : Value) (q : Prompt) : Prop :=
  r.get h key = .ok (some q)

/-- The new prompt is found under its name and its id, and under the keys of a prompt that its id
led to before. What the other keys lead to is as it was. -/
structure Registers (h : Heap) (r r' : Registry) (name : Value) (p : Prompt) : Prop where
  named : r'.Leads h name p
  own : r'.Leads h p.id p
  follow : ∀ key n q, key.asText? = some n → r.Leads h key q → r.Leads h p.id q → r'.Leads h key p
  others : ∀ key n, key.asText? = some n → key.asText? ≠ name.asText? → key.asText? ≠ idText p →
    (∀ q, r.Leads h key q → ¬ r.Leads h p.id q) → r'.get h key = r.get h key

/-- Every prompt that was found under its id still is, but for one of the id or of the name that is
registered. -/
def Spares (h : Heap) (r r' : Registry) (name : Value) (p : Prompt) : Prop :=
  ∀ q, idText q ≠ idText p → idText q ≠ name.asText? → r.Leads h q.id q → r'.Leads h q.id q

/-- A prompt that is found under its id, and under the id of another that is registered under a name
that is neither. -/
structure Ousted (h : Heap) (r : Registry) (name : Value) (p q : Prompt) : Prop where
  other : idText q ≠ idText p
  unnamed : idText q ≠ name.asText?
  home : r.Leads h q.id q
  mistaken : r.Leads h p.id q

theorem Leads.unique (hp : r.Leads h key p) (hq : r.Leads h key q) : p = q :=
  Option.some.inj (Except.ok.inj (hp.symm.trans hq))

theorem Leads.registered (hq : r.Leads h key q) : r.Registered q := by
  simp only [Leads, get, bind_eq_ok, pure_eq_ok] at hq
  obtain ⟨-, -, hq⟩ := hq
  obtain ⟨e, he, rfl⟩ := Option.map_eq_some_iff.1 hq
  exact ⟨e, List.mem_of_find?_eq_some he, rfl⟩

theorem get_eq_find? (hn : key.asText? = some n) : r.get h key = .ok (r.find? h key) := by
  rw [get, Heap.checkKey_of_asText hn]
  rfl

theorem leads_iff (hs : Stocked K r) (hn : key.asText? = some n) :
    r.Leads h key q ↔ Under r.entries (some n) q := by
  rw [Leads, get_eq_find? hn, Except.ok.injEq, find?, hs.keyed.find?_eq_some_iff hn]

theorem registers_of_stocked (hK : Family K) (hs : Stocked K r) (hn : name.Worded) (hp : K p) :
    Registers h r (r.register h name (some p)).1 name p := by
  have hs' := hs.register (h := h) hK hn hp
  have hunder := fun t x => under_register (h := h) (t := t) (q := x) hK hs hn hp
  have ⟨n, hname, _⟩ := hn
  obtain ⟨id, hid, -⟩ := hK.worded p hp
  have hreplaced : ∀ q, r.Replaced p q ↔ r.Leads h p.id q ∧ q ≠ p := fun q => by
    rw [Replaced, idText, hid, leads_iff hs hid]
  refine ⟨?_, ?_, fun key k q hk hq hold => ?_, fun key k hk hkn hki hold => ?_⟩
  · exact (leads_iff hs' hname).2 ((hunder _ p).2 (.inl ⟨.inl hname.symm, rfl⟩))
  · exact (leads_iff hs' hid).2 ((hunder _ p).2 (.inl ⟨.inr hid.symm, rfl⟩))
  · rw [leads_iff hs hk] at hq
    rw [leads_iff hs' hk, hunder]
    by_cases hnew : some k = name.asText? ∨ some k = idText p
    · exact .inl ⟨hnew, rfl⟩
    · rw [not_or] at hnew
      refine .inr ⟨hnew.1, hnew.2, ?_⟩
      by_cases hqp : q = p
      · exact .inl ⟨hqp ▸ hq, fun ho => ho.2 rfl⟩
      · exact .inr ⟨rfl, q, (hreplaced q).2 ⟨hold, hqp⟩, hq⟩
  · rw [get_eq_find? hk, get_eq_find? hk, Except.ok.injEq]
    apply Option.ext
    intro x
    rw [find?, find?, hs'.keyed.find?_eq_some_iff hk, hs.keyed.find?_eq_some_iff hk, hunder]
    rw [hk] at hkn hki
    have hgone : ∀ d, Under r.entries (some k) d → ¬ r.Replaced p d := fun d hd ho =>
      hold d ((leads_iff hs hk).2 hd) ((hreplaced d).1 ho).1
    constructor
    · intro hx
      obtain ⟨hnew | hnew, -⟩ | ⟨-, -, ⟨hx, -⟩ | ⟨-, old, ho, hu⟩⟩ := hx
      · exact (hkn hnew).elim
      · exact (hki hnew).elim
      · exact hx
      · exact (hgone old hu ho).elim
    · exact fun hx => .inr ⟨hkn, hki, .inl ⟨hx, hgone x hx⟩⟩

/-- The one prompt that a registration does not spare is the one that it takes for a forerunner. -/
theorem Registers.spares_iff (hreg : Registers h r r' name p) (hK : Family K) (hs : Stocked K r) :
    Spares h r r' name p ↔ ∀ q, ¬ Ousted h r name p q := by
  have htext : ∀ q, r.Leads h q.id q → ∃ i, q.id.asText? = some i := by
    intro q hq
    obtain ⟨i, hi, -⟩ := hK.worded q (hs.registered q hq.registered)
    exact ⟨i, hi⟩
  constructor
  · intro hall q ho
    obtain ⟨i, hi⟩ := htext q ho.home
    have hkept := hall q ho.other ho.unnamed ho.home
    have hled := hreg.follow q.id i q hi ho.home ho.mistaken
    exact ho.other (congrArg idText (hkept.unique hled))
  · intro hno q hid hname hq
    obtain ⟨i, hi⟩ := htext q hq
    have hget : r'.get h q.id = r.get h q.id := by
      apply hreg.others q.id i hi hname hid
      intro x hx hold
      rw [hx.unique hq] at hold
      exact hno q ⟨hid, hname, hq, hold⟩
    exact hget.trans hq

theorem worded_of_register (hn : name.asText? = some n) (hi : p.id.asText? = some id)
    (hok : (r.register h name (some p)).2 = .ok ()) : name.Worded ∧ p.id.Worded := by
  have hname : n ≠ "" := by
    intro he
    simp [register, Heap.truth_of_asText hn, he] at hok
  have hid : id ≠ "" := by
    intro he
    simp [register, Heap.truth_of_asText hn, Heap.truth_of_asText hi, hname, he] at hok
  exact ⟨⟨n, hn, hname⟩, id, hi, hid⟩

theorem Stocked.step_textual (hs : Stocked K r) (hK : Family K) {c : Call} (hc : c.Textual)
    (hp : ∀ name p, c = .register name p → p.id.Worded → K p) : Stocked K (c.step h r) := by
  cases c with
  | register name p =>
    obtain ⟨n, hn⟩ := Option.isSome_iff_exists.1 hc.1
    obtain ⟨id, hi⟩ := Option.isSome_iff_exists.1 hc.2
    rcases step_register (h := h) (r := r) (m := .empty) hn hi with ⟨⟨hw, hw'⟩, -⟩ | ⟨he, -⟩
    · exact hs.register hK hw (hp name p rfl hw')
    · rw [Call.step, he]
      exact hs
  | unregister name =>
    obtain ⟨n, hn⟩ := Option.isSome_iff_exists.1 hc
    rw [Call.step, unregister, get_eq_find? hn]
    cases hf : r.find? h name with
    | none => exact hs
    | some p =>
      have hp := Leads.registered ((get_eq_find? hn).trans (congrArg _ hf))
      exact hs.remove hK (hs.registered p hp)
  | clear => exact stocked_empty

end Registry

namespace Session

open Registry

variable {s s' : Session} {calls done : List Call} {name : Value} {p : Prompt}

/-- Names and ids are texts, and the same prompt has the same fields wherever it is registered. -/
structure Typed (calls : List Call) : Prop where
  textual : ∀ c ∈ calls, c.Textual
  serial : ∀ p q, Offered calls p → Offered calls q → p.serial = q.serial → p = q

theorem Typed.family (hc : Typed calls) : Family (Accepted calls) where
  worded _ hp := hp.2
  serial p q hp hq := hc.serial p q hp.1 hq.1

theorem Typed.stocked (hc : Typed calls) (hr : s.registry = {}) (hd : done <+: calls) :
    Stocked (Accepted calls) (s.after done).registry := by
  induction done using List.reverseRecOn with
  | nil => exact hr ▸ stocked_empty
  | append_singleton done c ih =>
    have hm : c ∈ calls := hd.subset (List.mem_append_right _ (List.mem_singleton.2 rfl))
    rw [after_registry]
    exact (ih ((List.prefix_append done [c]).trans hd)).step_textual hc.family (hc.textual c hm)
      fun name p he hw => ⟨⟨name, he ▸ hm⟩, hw⟩

theorem register_eq_ok (hrun : (Action.register name (some p)).run.run s = (.ok (), s')) :
    (s.registry.register s.heap name (some p)).2 = .ok () ∧
      s'.registry = (s.registry.register s.heap name (some p)).1 := by
  obtain ⟨o, lines, hact⟩ := (Call.register name p).run_act s
  have hs' : s' = { s with registry := (s.registry.register s.heap name (some p)).1, lines } :=
    congrArg Prod.snd (hrun.symm.trans hact)
  have hsteps : (do
      Action.read fun _ => (s.registry.register s.heap name (some p)).2
      let id ← Action.read fun h => h.text p.id
      let shown ← Action.read fun h => h.text name
      Action.log .debug s!"Registered prompt '{id}' as '{shown}'" : Action Unit).run.run
        { s with registry := (s.registry.register s.heap name (some p)).1 } = (.ok (), s') := hrun
  obtain ⟨x, u, hread, -⟩ := Action.run_bind_eq_ok.1 hsteps
  exact ⟨(Action.run_read_eq_ok.1 hread).1, by rw [hs']⟩

theorem Typed.of_prefix (hc : Typed calls) (hd : done <+: calls) : Typed done where
  textual c hm := hc.textual c (hd.subset hm)
  serial p q hp hq :=
    hc.serial p q (hp.imp fun _ hm => hd.subset hm) (hq.imp fun _ hm => hd.subset hm)

/-- After any run from an empty registry, a registration that succeeds does to the keys what it is
meant to do, and spares the prompts of other ids if and only if the new id is not another name of one
of them that is found under its own. -/
theorem register_spares_iff (hc : Typed (done ++ [.register name p])) (hr : s.registry = {})
    (hrun : (Action.register name (some p)).run.run (s.after done) = (.ok (), s')) :
    Registers s.heap (s.after done).registry s'.registry name p ∧
      (Spares s.heap (s.after done).registry s'.registry name p ↔
        ∀ q, ¬ Ousted s.heap (s.after done).registry name p q) := by
  have hm : Call.register name p ∈ done ++ [.register name p] :=
    List.mem_append_right _ (List.mem_singleton.2 rfl)
  have hs := hc.stocked hr (List.prefix_append done [.register name p])
  obtain ⟨hok, hregistry⟩ := register_eq_ok hrun
  obtain ⟨n, hn⟩ := Option.isSome_iff_exists.1 (hc.textual _ hm).1
  obtain ⟨id, hi⟩ := Option.isSome_iff_exists.1 (hc.textual _ hm).2
  obtain ⟨hname, hid⟩ := worded_of_register hn hi hok
  have hreg := registers_of_stocked (h := s.heap) hc.family hs hname ⟨⟨name, hm⟩, hid⟩
  rw [after_heap] at hregistry
  rw [hregistry]
  exact ⟨hreg, hreg.spares_iff hc.family hs⟩

/-- A prompt gets a name besides its id, and then another prompt has that name for an id. -/
def usurped : List Call :=
  [.register (.text "x") (bare 0 "q" .general), .register (.text "y") (bare 1 "x" .general)]

def newcomer : Prompt := bare 2 "p" .general

theorem typed_usurped : Typed (usurped ++ [.register (.text "z") newcomer]) where
  textual c hc := by
    simp only [usurped, List.cons_append, List.nil_append, List.mem_cons, List.not_mem_nil,
      or_false] at hc
    rcases hc with rfl | rfl | rfl
    all_goals exact ⟨rfl, rfl⟩
  serial p q hp hq := by
    obtain ⟨n, hp⟩ := hp
    obtain ⟨m, hq⟩ := hq
    simp only [usurped, List.cons_append, List.nil_append, List.mem_cons, List.not_mem_nil,
      or_false, Call.register.injEq] at hp hq
    rcases hp with ⟨-, rfl⟩ | ⟨-, rfl⟩ | ⟨-, rfl⟩ <;>
      rcases hq with ⟨-, rfl⟩ | ⟨-, rfl⟩ | ⟨-, rfl⟩
    all_goals first | exact fun _ => rfl | exact (fun he => by cases he)

/-- A third prompt spares the second. -/
theorem register_spares_newcomer :
    Typed (usurped ++ [.register (.text "z") newcomer]) ∧ ∃ s',
      (Action.register (.text "z") (some newcomer)).run.run (({} : Session).after usurped) =
          (.ok (), s') ∧
        Spares .empty (({} : Session).after usurped).registry s'.registry (.text "z") newcomer := by
  refine ⟨typed_usurped, _, rfl, ?_⟩
  apply (register_spares_iff (s := {}) typed_usurped rfl rfl).2.2
  intro q ho
  have hnone : (({} : Session).after usurped).registry.get .empty newcomer.id = .ok none := by
    decide
  cases hnone.symm.trans ho.mistaken

/-- The second prompt is found under the id of the first. -/
theorem not_spares_usurped : Typed usurped ∧
    (Action.register (.text "y") (some (bare 1 "x" .general))).run.run
        (({} : Session).after (usurped.take 1)) = (.ok (), ({} : Session).after usurped) ∧
      ¬ Spares .empty (({} : Session).after (usurped.take 1)).registry
        (({} : Session).after usurped).registry (.text "y") (bare 1 "x" .general) := by
  refine ⟨typed_usurped.of_prefix (List.prefix_append _ _), rfl, fun hall => ?_⟩
  have hbefore : (({} : Session).after (usurped.take 1)).registry.Leads .empty (.text "q")
      (bare 0 "q" .general) := rfl
  have hafter : (({} : Session).after usurped).registry.Leads .empty (.text "q")
      (bare 1 "x" .general) := rfl
  cases (hall (bare 0 "q" .general) (by decide) (by decide) hbefore).unique hafter

end Session

end Promptbook
