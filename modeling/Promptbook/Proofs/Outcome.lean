import Promptbook.Heap.Display
import Promptbook.Heap.Equal
import Promptbook.Heap.Shape

namespace Promptbook

variable {ε α β γ : Type}

theorem bind_eq_ok {x : Except ε α} {f : α → Except ε β} {b : β} :
    (x >>= f) = .ok b ↔ ∃ a, x = .ok a ∧ f a = .ok b := by
  cases x with
  | error e => simp [bind, Except.bind]
  | ok a => simp [bind, Except.bind]

theorem isOk_iff {x : Except ε α} : x.isOk ↔ ∃ a, x = .ok a := by
  cases x with
  | error e => exact iff_of_false Bool.false_ne_true fun ⟨_, h⟩ => nomatch h
  | ok a => exact iff_of_true rfl ⟨a, rfl⟩

@[simp] theorem ok_bind (a : α) (f : α → Except ε β) : (Except.ok a >>= f) = f a := rfl

theorem map_bind (x : Except ε α) (f : α → β) (g : β → Except ε γ) :
    (x.map f >>= g) = x >>= fun y => g (f y) := by
  cases x <;> rfl

theorem map_eq_ok {x : Except ε α} {f : α → β} {b : β} :
    x.map f = .ok b ↔ ∃ a, x = .ok a ∧ f a = b := by
  cases x <;> simp [Except.map]

theorem pure_eq_ok {a b : α} : (pure a : Except ε α) = .ok b ↔ a = b :=
  ⟨fun h => Except.ok.inj h, fun h => congrArg _ h⟩

theorem Heap.anyOk_congr {f g : α → Except Fault Bool} {xs : List α}
    (hfg : ∀ x ∈ xs, f x = g x) : anyOk f xs = anyOk g xs := by
  induction xs with
  | nil => rfl
  | cons x xs ih =>
    simp only [List.forall_mem_cons] at hfg
    simp only [anyOk, hfg.1, ih hfg.2]

theorem Heap.eachOk_congr {f g : α → Except Fault β} {xs : List α}
    (hfg : ∀ x ∈ xs, f x = g x) : eachOk f xs = eachOk g xs := by
  induction xs with
  | nil => rfl
  | cons x xs ih =>
    simp only [List.forall_mem_cons] at hfg
    simp only [eachOk, hfg.1, ih hfg.2]

theorem Heap.anyOk_total {f : α → Except Fault Bool} {xs : List α}
    (hf : ∀ x ∈ xs, ∃ b, f x = .ok b) : ∃ b, anyOk f xs = .ok b := by
  induction xs with
  | nil => exact ⟨false, rfl⟩
  | cons x xs ih =>
    rw [List.forall_mem_cons] at hf
    obtain ⟨b, hb⟩ := hf.1
    rw [anyOk, hb, ok_bind]
    cases b with
    | true => exact ⟨true, rfl⟩
    | false => exact ih hf.2

theorem Heap.anyOk_mono {f g : α → Except Fault Bool} {xs : List α} {b : Bool}
    (hfg : ∀ x ∈ xs, ∀ b, f x = .ok b → g x = .ok b) (hf : anyOk f xs = .ok b) :
    anyOk g xs = .ok b := by
  induction xs with
  | nil => exact hf
  | cons x xs ih =>
    rw [List.forall_mem_cons] at hfg
    rw [anyOk, bind_eq_ok] at hf
    obtain ⟨found, hx, hf⟩ := hf
    rw [anyOk, hfg.1 found hx, ok_bind]
    cases found with
    | true => exact hf
    | false => exact ih hfg.2 hf

theorem Heap.anyOk_eq_false {f : α → Except Fault Bool} {xs : List α}
    (hf : anyOk f xs = .ok false) : ∀ x ∈ xs, f x = .ok false := by
  induction xs with
  | nil => exact List.forall_mem_nil _
  | cons x xs ih =>
    rw [anyOk, bind_eq_ok] at hf
    obtain ⟨b, hb, hf⟩ := hf
    cases b with
    | true => cases hf
    | false => exact List.forall_mem_cons.2 ⟨hb, ih hf⟩

theorem Heap.exists_of_anyOk {f : α → Except Fault Bool} {xs : List α}
    (hf : anyOk f xs = .ok true) : ∃ x ∈ xs, f x = .ok true := by
  induction xs with
  | nil => cases hf
  | cons x xs ih =>
    rw [anyOk, bind_eq_ok] at hf
    obtain ⟨b, hb, hf⟩ := hf
    cases b with
    | true => exact ⟨x, List.mem_cons_self, hb⟩
    | false =>
      obtain ⟨y, hy, hfy⟩ := ih hf
      exact ⟨y, List.mem_cons_of_mem x hy, hfy⟩

theorem Heap.maxOk_total {f : α → Except Fault Nat} {xs : List α} (hf : ∀ x ∈ xs, ∃ d, f x = .ok d)
    (deepest : Nat) : ∃ d, maxOk f deepest xs = .ok d := by
  induction xs generalizing deepest with
  | nil => exact ⟨deepest, rfl⟩
  | cons x xs ih =>
    rw [List.forall_mem_cons] at hf
    obtain ⟨d, hd⟩ := hf.1
    rw [maxOk, hd, ok_bind]
    exact ih hf.2 (max deepest d)

theorem Heap.maxOk_eq_ok {f : α → Except Fault Nat} {xs : List α} {deepest d : Nat}
    (hf : maxOk f deepest xs = .ok d) :
    deepest ≤ d ∧ (∀ x ∈ xs, ∃ e ≤ d, f x = .ok e) ∧ (deepest = d ∨ ∃ x ∈ xs, f x = .ok d) := by
  induction xs generalizing deepest with
  | nil =>
    obtain rfl := Except.ok.inj hf
    exact ⟨Nat.le_refl _, List.forall_mem_nil _, .inl rfl⟩
  | cons x xs ih =>
    rw [maxOk, bind_eq_ok] at hf
    obtain ⟨e, he, hf⟩ := hf
    obtain ⟨hle, hall, hreached⟩ := ih hf
    rw [Nat.max_le] at hle
    refine ⟨hle.1, List.forall_mem_cons.2 ⟨⟨e, hle.2, he⟩, hall⟩, ?_⟩
    obtain hmax | ⟨y, hy, hfy⟩ := hreached
    · rcases Nat.le_total e deepest with hed | hde
      · exact .inl ((Nat.max_eq_left hed).symm.trans hmax)
      · obtain rfl := (Nat.max_eq_right hde).symm.trans hmax
        exact .inr ⟨x, List.mem_cons_self, he⟩
    · exact .inr ⟨y, List.mem_cons_of_mem x hy, hfy⟩

theorem Heap.findOk_eq_some {test : α → Except Fault Bool} {xs : List α} {x : α}
    (hf : findOk test xs = .ok (some x)) : x ∈ xs ∧ test x = .ok true := by
  induction xs with
  | nil => cases hf
  | cons y ys ih =>
    rw [findOk, bind_eq_ok] at hf
    obtain ⟨b, hb, hf⟩ := hf
    cases b with
    | true =>
      cases hf
      exact ⟨List.mem_cons_self, hb⟩
    | false =>
      obtain ⟨hx, htest⟩ := ih hf
      exact ⟨List.mem_cons_of_mem y hx, htest⟩

theorem Heap.eachOk_of_mem {f : α → Except Fault β} {xs : List α} {ys : List β} {x : α}
    (hf : eachOk f xs = .ok ys) (hx : x ∈ xs) : ∃ y, f x = .ok y := by
  induction xs generalizing ys with
  | nil => cases hx
  | cons z zs ih =>
    simp only [eachOk, bind_eq_ok] at hf
    obtain ⟨y, hy, ys, hys, -⟩ := hf
    rcases List.mem_cons.1 hx with rfl | hx
    · exact ⟨y, hy⟩
    · exact ih hys hx

theorem Heap.eachOk_mem {f : α → Except Fault β} {xs : List α} {ys : List β}
    (hf : eachOk f xs = .ok ys) {y : β} : y ∈ ys ↔ ∃ x ∈ xs, f x = .ok y := by
  induction xs generalizing ys with
  | nil =>
    cases hf
    simp
  | cons x xs ih =>
    simp only [eachOk, bind_eq_ok, pure_eq_ok] at hf
    obtain ⟨z, hz, zs, hzs, rfl⟩ := hf
    rw [List.mem_cons, ih hzs]
    simp [hz, eq_comm]

theorem Heap.eachOk_error {f : α → Except Fault β} {xs : List α} {cause : Fault}
    (hf : eachOk f xs = .error cause) : ∃ x ∈ xs, f x = .error cause := by
  induction xs with
  | nil => cases hf
  | cons x xs ih =>
    cases hx : f x with
    | error cause' =>
      rw [eachOk, hx] at hf
      cases hf
      exact ⟨x, List.mem_cons_self, hx⟩
    | ok y =>
      cases hxs : eachOk f xs with
      | error cause' =>
        rw [eachOk, hx, ok_bind, hxs] at hf
        cases hf
        obtain ⟨z, hz, hfz⟩ := ih hxs
        exact ⟨z, List.mem_cons_of_mem x hz, hfz⟩
      | ok ys =>
        rw [eachOk, hx, ok_bind, hxs] at hf
        cases hf

theorem Heap.eachOk_total {f : α → Except Fault β} {xs : List α}
    (hf : ∀ x ∈ xs, ∃ y, f x = .ok y) : ∃ ys, eachOk f xs = .ok ys := by
  induction xs with
  | nil => exact ⟨[], rfl⟩
  | cons x xs ih =>
    rw [List.forall_mem_cons] at hf
    obtain ⟨y, hy⟩ := hf.1
    obtain ⟨ys, hys⟩ := ih hf.2
    exact ⟨y :: ys, bind_eq_ok.2 ⟨y, hy, bind_eq_ok.2 ⟨ys, hys, rfl⟩⟩⟩

end Promptbook
