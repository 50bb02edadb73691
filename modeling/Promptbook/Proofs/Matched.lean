import Promptbook.Proofs.Outcome

namespace Promptbook

variable {ε α β γ δ : Type}

/-- Both fail in the same way, or both give values, and these are related. -/
inductive Matched (R : α → β → Prop) : Except ε α → Except ε β → Prop
  | error (e : ε) : Matched R (.error e) (.error e)
  | ok {x : α} {y : β} : R x y → Matched R (.ok x) (.ok y)

namespace Matched

variable {R : α → β → Prop} {S : γ → δ → Prop} {x : Except ε α} {y : Except ε β}

theorem inv (hxy : Matched R x y) :
    (∃ e, x = .error e ∧ y = .error e) ∨ ∃ a b, x = .ok a ∧ y = .ok b ∧ R a b := by
  cases hxy with
  | error e => exact .inl ⟨e, rfl, rfl⟩
  | ok h => exact .inr ⟨_, _, rfl, rfl, h⟩

theorem mono {R' : α → β → Prop} (hxy : Matched R x y) (hR : ∀ a b, R a b → R' a b) :
    Matched R' x y := by
  cases hxy with
  | error e => exact .error e
  | ok h => exact .ok (hR _ _ h)

theorem bind {f : α → Except ε γ} {g : β → Except ε δ} (hxy : Matched R x y)
    (hfg : ∀ a b, R a b → Matched S (f a) (g b)) : Matched S (x >>= f) (y >>= g) := by
  cases hxy with
  | error e => exact .error e
  | ok h => exact hfg _ _ h

theorem bind_same {z : Except ε α} {f : α → Except ε γ} {g : α → Except ε δ}
    (hfg : ∀ a, Matched S (f a) (g a)) : Matched S (z >>= f) (z >>= g) := by
  cases z with
  | error e => exact .error e
  | ok a => exact hfg a

theorem bind_map {z : Except ε α} {r : α → β} {f : α → Except ε γ} {g : β → Except ε δ}
    (hfg : ∀ a, Matched S (f a) (g (r a))) : Matched S (z >>= f) (z.map r >>= g) := by
  cases z with
  | error e => exact .error e
  | ok a => exact hfg a

theorem map {f : α → γ} {g : β → δ} (hxy : Matched R x y) (hfg : ∀ a b, R a b → S (f a) (g b)) :
    Matched S (x.map f) (y.map g) := by
  cases hxy with
  | error e => exact .error e
  | ok h => exact .ok (hfg _ _ h)

end Matched

end Promptbook
