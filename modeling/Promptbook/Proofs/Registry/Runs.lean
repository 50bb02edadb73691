import Promptbook.Proofs.Registry.Agreement
import Promptbook.Proofs.Registry.Owned

namespace Promptbook.Session

open Registry

variable {s : Session} {calls : List Call}

/-- The views of a registry agree after every call of a run if and only if each prompt fits when it
is registered. -/
theorem agree_iff_fits (hc : Sensible calls) (hr : s.registry = {}) :
    (∀ done, done <+: calls → (s.after done).registry.Agrees s.heap) ↔
      ∀ done name p, done ++ [.register name p] <+: calls →
        (s.after done).registry.Fits name p := by
  have hstock : ∀ done, done <+: calls → Stocked (Offered calls) (s.after done).registry :=
    fun done hd => hc.stocked hr hd
  have htidy : ∀ done, done <+: calls →
      ((s.after done).registry.Agrees s.heap ↔ (s.after done).registry.Tidy) := fun done hd =>
    (hstock done hd).agrees_iff hc.family
  have hstep : ∀ done c, done ++ [c] <+: calls → (s.after done).registry.Tidy →
      ((s.after (done ++ [c])).registry.Tidy ↔
        ∀ name p, c = .register name p → (s.after done).registry.Fits name p) := by
    intro done c hd ht
    have hm : c ∈ calls := hd.subset (List.mem_append_right _ (List.mem_singleton.2 rfl))
    rw [after_registry]
    exact ht.step_iff (hstock done ((List.prefix_append done [c]).trans hd)) hc.family
      (hc.worded c hm) fun name p he => ⟨name, he ▸ hm⟩
  constructor
  · intro ha done name p hd
    have hd' := (List.prefix_append done [.register name p]).trans hd
    exact (hstep done _ hd ((htidy _ hd').1 (ha _ hd'))).1 ((htidy _ hd).1 (ha _ hd)) name p rfl
  · intro hf done hd
    apply (htidy done hd).2
    induction done using List.reverseRecOn with
    | nil => exact hr ▸ tidy_empty
    | append_singleton done c ih =>
      have ht := ih ((List.prefix_append done [c]).trans hd)
      exact (hstep done c hd ht).2 fun name p he => hf done name p (he ▸ hd)

def bare (serial : Nat) (id : String) (category : Category) : Prompt where
  serial
  id := .text id
  name := .text id
  body := .null
  description := .text ""
  category
  version := .text "1.0.0"
  schemaVersion := .text "1.0"
  options := ⟨.null, .null, .null, .null, .null⟩
  hints := none
  author := .null
  created := .null
  modified := .null

def takeover : List Call :=
  [.register (.text "a") (bare 0 "a" .general), .register (.text "a") (bare 1 "b" .general)]

theorem takeover_sensible : Sensible takeover where
  worded c hc := by
    simp only [takeover, List.mem_cons, List.not_mem_nil, or_false] at hc
    rcases hc with rfl | rfl
    all_goals exact ⟨⟨"a", rfl, by decide⟩, ⟨_, rfl, by decide⟩⟩
  serial p q hp hq := by
    obtain ⟨n, hp⟩ := hp
    obtain ⟨m, hq⟩ := hq
    simp only [takeover, List.mem_cons, List.not_mem_nil, or_false, Call.register.injEq] at hp hq
    rcases hp with ⟨-, rfl⟩ | ⟨-, rfl⟩ <;> rcases hq with ⟨-, rfl⟩ | ⟨-, rfl⟩
    all_goals first | exact fun _ => rfl | exact (fun he => by cases he)

/-- The prompt that lost its key stays on its shelf. -/
theorem takeover_disagrees :
    Sensible takeover ∧ ¬ (({} : Session).after takeover).registry.Agrees .empty := by
  refine ⟨takeover_sensible, fun ha => ?_⟩
  have hs := takeover_sensible.stocked (s := {}) rfl (List.prefix_refl takeover)
  have ht := hs.tidy takeover_sensible.family ha
  have hshelf : bare 0 "a" .general ∈
      (({} : Session).after takeover).registry.shelves .general := by decide
  obtain ⟨⟨e, he, hq⟩, -⟩ := (ht.mem_iff _ _).1 hshelf
  have hgone : ∀ e ∈ (({} : Session).after takeover).registry.entries,
      e.2 ≠ bare 0 "a" .general := by decide
  exact hgone e he hq

/-- A prompt gets a second name, gives way to another of its id and category, and that is removed by
the name of the first. -/
def turnover : List Call :=
  [.register (.text "x") (bare 0 "a" .general), .register (.text "a") (bare 1 "a" .refactoring),
    .unregister (.text "x")]

theorem turnover_sensible : Sensible turnover where
  worded c hc := by
    simp only [turnover, List.mem_cons, List.not_mem_nil, or_false] at hc
    rcases hc with rfl | rfl | rfl
    · exact ⟨⟨"x", rfl, by decide⟩, ⟨"a", rfl, by decide⟩⟩
    · exact ⟨⟨"a", rfl, by decide⟩, ⟨"a", rfl, by decide⟩⟩
    · exact ⟨"x", rfl, by decide⟩
  serial p q hp hq := by
    obtain ⟨n, hp⟩ := hp
    obtain ⟨m, hq⟩ := hq
    simp only [turnover, List.mem_cons, List.not_mem_nil, or_false, Call.register.injEq,
      reduceCtorEq] at hp hq
    rcases hp with ⟨-, rfl⟩ | ⟨-, rfl⟩ <;> rcases hq with ⟨-, rfl⟩ | ⟨-, rfl⟩
    all_goals first | exact fun _ => rfl | exact (fun he => by cases he)

theorem turnover_owned : Owned turnover := by
  intro n p m q hp hq _
  simp only [turnover, List.mem_cons, List.not_mem_nil, or_false, Call.register.injEq,
    reduceCtorEq] at hp hq
  rcases hp with ⟨-, rfl⟩ | ⟨-, rfl⟩ <;> rcases hq with ⟨-, rfl⟩ | ⟨-, rfl⟩
  all_goals rfl

theorem turnover_agrees :
    Sensible turnover ∧ (({} : Session).after turnover).registry.Agrees .empty := by
  have hagree := (agree_iff_fits (s := {}) turnover_sensible rfl).2 fun _ _ _ hd =>
    turnover_sensible.fits turnover_owned rfl hd
  exact ⟨turnover_sensible, hagree turnover (List.prefix_refl turnover)⟩

end Promptbook.Session
