import Mathlib.Logic.Function.Basic
import Promptbook.Proofs.Registry.Calls

namespace Promptbook

open Registry

structure Holdings where
  prompts : String → Option Prompt
  aliases : String → Option String

namespace Holdings

def empty : Holdings where
  prompts _ := none
  aliases _ := none

def idOf (m : Holdings) (name : String) : Option String :=
  if (m.prompts name).isSome then some name else m.aliases name

def find? (m : Holdings) (name : String) : Option Prompt :=
  (m.idOf name).bind m.prompts

def register (m : Holdings) (name id : String) (p : Prompt) : Holdings where
  prompts := Function.update m.prompts id (some p)
  aliases := if name = id then m.aliases else Function.update m.aliases name (some id)

def remove (m : Holdings) (id : String) : Holdings where
  prompts := Function.update m.prompts id none
  aliases name := if m.aliases name = some id then none else m.aliases name

def step (m : Holdings) : Call → Holdings
  | .register name p =>
    match name.asText?, idText p with
    | some n, some id => if n = "" ∨ id = "" then m else m.register n id p
    | _, _ => m
  | .unregister name =>
    match name.asText?.bind m.idOf with
    | some id => m.remove id
    | none => m
  | .clear => empty

def after (m : Holdings) (calls : List Call) : Holdings :=
  calls.foldl step m

theorem after_snoc {m : Holdings} {done : List Call} {c : Call} :
    m.after (done ++ [c]) = (m.after done).step c := by
  rw [after, List.foldl_append]
  rfl

structure Sound (m : Holdings) : Prop where
  own : ∀ id q, m.prompts id = some q → idText q = some id
  live : ∀ name id, m.aliases name = some id → (m.prompts id).isSome
  apart : ∀ name id, m.aliases name = some id → m.prompts name = none

theorem sound_empty : Sound empty where
  own _ _ h := by cases h
  live _ _ h := by cases h
  apart _ _ h := by cases h

section Find

variable {m : Holdings} {name id : String} {p q : Prompt}

theorem Sound.isSome_of_idOf (hm : Sound m) (hi : m.idOf name = some id) :
    (m.prompts id).isSome := by
  rw [idOf] at hi
  split at hi
  · next hs =>
    cases hi
    exact hs
  · exact hm.live name id hi

theorem find?_id (hp : (m.prompts id).isSome) : m.find? id = m.prompts id := by
  rw [find?, idOf, if_pos hp]
  rfl

theorem Sound.find?_eq_some_iff (hm : Sound m) :
    m.find? name = some q ↔ m.idOf name = idText q ∧ ∃ id, m.prompts id = some q := by
  rw [find?, Option.bind_eq_some_iff]
  constructor
  · intro hq
    obtain ⟨id, hi, hq⟩ := hq
    exact ⟨hi.trans (hm.own id q hq).symm, id, hq⟩
  · intro hq
    obtain ⟨hi, id, hq⟩ := hq
    exact ⟨id, hi.trans (hm.own id q hq), hq⟩

theorem Sound.find?_eq_none_iff (hm : Sound m) : m.find? name = none ↔ m.idOf name = none := by
  rw [find?]
  cases hi : m.idOf name with
  | none => simp
  | some id =>
    have hs := hm.isSome_of_idOf hi
    simp [Option.isSome_iff_ne_none.1 hs]

theorem Sound.unique (hm : Sound m) (hp : m.prompts id = some p)
    (hq : ∃ id, m.prompts id = some q) (he : idText q = some id) : q = p := by
  obtain ⟨i, hq⟩ := hq
  rw [hm.own i q hq, Option.some.injEq] at he
  exact Option.some.inj (hq.symm.trans (he ▸ hp))

end Find

section Register

variable {m : Holdings} {name id k : String} {p q : Prompt}

def Admits (m : Holdings) (name id : String) : Prop :=
  m.aliases id = none ∧ (name = id ∨ m.prompts name = none)

theorem idOf_register (ha : m.Admits name id) :
    (m.register name id p).idOf k = if k = name ∨ k = id then some id else m.idOf k := by
  obtain ⟨hi, hn⟩ := ha
  by_cases hki : k = id
  · subst hki
    simp [idOf, register]
  · by_cases hkn : k = name
    · subst hkn
      obtain he | hn := hn
      · exact (hki he).elim
      · simp [idOf, register, hki, hn]
    · by_cases hni : name = id
      · simp [idOf, register, hki, hni]
      · simp [idOf, register, hki, hkn, hni]

theorem Sound.register (hm : Sound m) (ha : m.Admits name id) (hp : idText p = some id) :
    Sound (m.register name id p) where
  own i q hq := by
    by_cases hi : i = id
    · subst hi
      simp only [Holdings.register, Function.update_self, Option.some.injEq] at hq
      exact hq ▸ hp
    · simp only [Holdings.register, Function.update_of_ne hi] at hq
      exact hm.own i q hq
  live n i hn := by
    by_cases hi : i = id
    · simp [Holdings.register, hi]
    · simp only [Holdings.register, Function.update_of_ne hi]
      by_cases hni : name = id
      · exact hm.live n i (by simpa [Holdings.register, hni] using hn)
      · by_cases hnn : n = name
        · subst hnn
          simp only [Holdings.register, if_neg hni, Function.update_self, Option.some.injEq] at hn
          exact (hi hn.symm).elim
        · exact hm.live n i (by simpa [Holdings.register, hni, hnn] using hn)
  apart n i hn := by
    have hne : n ≠ id := by
      intro he
      subst he
      by_cases hni : name = n
      · simp [Holdings.register, hni, ha.1] at hn
      · simp [Holdings.register, hni, Ne.symm hni, ha.1] at hn
    simp only [Holdings.register, Function.update_of_ne hne]
    by_cases hni : name = id
    · exact hm.apart n i (by simpa [Holdings.register, hni] using hn)
    · by_cases hnn : n = name
      · exact hnn ▸ ha.2.resolve_left hni
      · exact hm.apart n i (by simpa [Holdings.register, hni, hnn] using hn)

theorem find?_register (ha : m.Admits name id) :
    (m.register name id p).find? k =
      if k = name ∨ k = id ∨ m.idOf k = some id then some p else m.find? k := by
  rw [find?, idOf_register ha]
  by_cases hk : k = name ∨ k = id
  · have hk' : k = name ∨ k = id ∨ m.idOf k = some id := by
      rw [← or_assoc]
      exact .inl hk
    rw [if_pos hk, if_pos hk']
    simp [register]
  · simp only [← or_assoc, hk, false_or, if_false, find?]
    cases hi : m.idOf k with
    | none => simp
    | some i =>
      by_cases he : i = id
      · simp [he, register]
      · simp [he, register]

end Register

section Remove

variable {m : Holdings} {name id k : String} {p q : Prompt}

theorem Sound.idOf_remove (hm : Sound m) (hp : (m.prompts id).isSome) :
    (m.remove id).idOf k = if m.idOf k = some id then none else m.idOf k := by
  by_cases hk : k = id
  · subst hk
    have ha : m.aliases k = none := by
      cases ha : m.aliases k with
      | none => rfl
      | some i => simp [hm.apart k i ha] at hp
    simp [idOf, Holdings.remove, hp, ha]
  · by_cases hs : (m.prompts k).isSome
    · simp [idOf, Holdings.remove, hk, hs]
    · simp [idOf, Holdings.remove, hk, hs]

theorem Sound.remove (hm : Sound m) : Sound (m.remove id) where
  own i q hq := by
    by_cases hi : i = id
    · simp [Holdings.remove, hi] at hq
    · simp only [Holdings.remove, Function.update_of_ne hi] at hq
      exact hm.own i q hq
  live n i hn := by
    simp only [Holdings.remove, Option.ite_none_left_eq_some] at hn
    have hi : i ≠ id := fun he => hn.1 (he ▸ hn.2)
    simp only [Holdings.remove, Function.update_of_ne hi]
    exact hm.live n i hn.2
  apart n i hn := by
    simp only [Holdings.remove, Option.ite_none_left_eq_some] at hn
    by_cases he : n = id
    · simp [Holdings.remove, he]
    · simp only [Holdings.remove, Function.update_of_ne he]
      exact hm.apart n i hn.2

theorem Sound.find?_remove (hm : Sound m) (hp : (m.prompts id).isSome) :
    (m.remove id).find? k = if m.idOf k = some id then none else m.find? k := by
  rw [find?, hm.idOf_remove hp]
  split
  · rfl
  · next hk =>
    rw [find?]
    cases hi : m.idOf k with
    | none => rfl
    | some i =>
      have he : i ≠ id := fun he => hk (hi.trans (congrArg some he))
      simp [Holdings.remove, he]

end Remove

end Holdings

end Promptbook
