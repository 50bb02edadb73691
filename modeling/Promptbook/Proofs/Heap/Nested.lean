import Promptbook.Proofs.Heap.Copy

namespace Promptbook

/-- An object from outside may refuse to be copied, and nothing else does. -/
def Value.isCopyable : Value → Bool
  | foreign o => o.copies = .gives ()
  | _ => true

@[simp] theorem Value.isCopyable_map (m : Ref → Ref) (v : Value) :
    (v.map m).isCopyable = v.isCopyable := by
  cases v <;> rfl

theorem Value.agreesToCopy_eq_ok {v : Value} (hv : v.isCopyable = true) :
    v.agreesToCopy = .ok () := by
  cases v with
  | foreign o =>
    have ho : o.copies = .gives () := of_decide_eq_true hv
    rw [agreesToCopy, ho]
    rfl
  | _ => rfl

namespace Heap

variable {h : Heap} {v w : Value} {r q t : Ref} {node : Node} {step : Value → CopyStep Value}
  {s s' : Copying}

/-- No route from a value that enters no list, dictionary or set twice is as long as a limit. A
tuple can be met again: it cannot be noted before its elements are there. -/
def Nested (h : Heap) : Nat → List Ref → Value → Prop
  | 0, _, _ => False
  | n + 1, entered, v => ∀ r node, v = .ref r → r ∉ entered → h.get? r = some node →
      ∀ x ∈ node.elements, h.Nested n (if node.isTuple then entered else r :: entered) x

theorem nested_of_not_ref {n : Nat} {entered : List Ref} (hn : 0 < n) (hv : v.asRef? = none) :
    h.Nested n entered v := by
  obtain ⟨n, rfl⟩ := Nat.exists_eq_succ_of_ne_zero (Nat.ne_of_gt hn)
  intro r node heq
  subst heq
  cases hv

theorem nested_succ_iff {n : Nat} {entered : List Ref} (hr : h.get? r = some node) :
    h.Nested (n + 1) entered (.ref r) ↔ r ∈ entered ∨
      ∀ x ∈ node.elements, h.Nested n (if node.isTuple then entered else r :: entered) x := by
  constructor
  · intro hn
    by_cases hin : r ∈ entered
    · exact .inl hin
    · exact .inr (hn r node rfl hin hr)
  · rintro hn _ node' ⟨⟩ hin hr'
    obtain rfl : node = node' := Option.some.inj (hr.symm.trans hr')
    exact hn.resolve_left hin

instance decidableNested (h : Heap) : ∀ n entered v, Decidable (h.Nested n entered v)
  | 0, _, _ => .isFalse id
  | n + 1, entered, v =>
    match hv : v.asRef? with
    | none => .isTrue (nested_of_not_ref n.succ_pos hv)
    | some r =>
      match hr : h.get? r with
      | none => .isTrue fun q node hq _ hn => by
          rw [hq] at hv
          cases hv
          rw [hr] at hn
          cases hn
      | some node =>
        have (x : Value) := decidableNested h n (if node.isTuple then entered else r :: entered) x
        decidable_of_iff
          (r ∈ entered ∨
            ∀ x ∈ node.elements, h.Nested n (if node.isTuple then entered else r :: entered) x)
          (Value.asRef?_eq_some.1 hv ▸ (nested_succ_iff hr).symm)

theorem Nested.mono {n n' : Nat} {entered : List Ref} (hn : h.Nested n entered v) (hle : n ≤ n') :
    h.Nested n' entered v := by
  induction n generalizing n' entered v with
  | zero => exact hn.elim
  | succ n ih =>
    obtain ⟨n', rfl⟩ := Nat.exists_eq_succ_of_ne_zero (Nat.ne_zero_of_lt hle)
    exact fun r node hv hr hnode x hx =>
      ih (hn r node hv hr hnode x hx) (Nat.le_of_succ_le_succ hle)

/-- Nothing that a value holds refuses to be copied. -/
def Copyable (h : Heap) (v : Value) : Prop :=
  ∀ ρ w, h.follow ρ v = some w → w.isCopyable = true

theorem Copyable.part {ρ : List Step} (hv : h.Copyable v) (hw : h.follow ρ v = some w) :
    h.Copyable w := fun σ x hx =>
  hv (ρ ++ σ) x (by rw [follow_append, hw]; exact hx)

theorem Copyable.element (hv : h.Copyable (.ref r)) (hr : h.get? r = some node)
    (hw : w ∈ node.elements) : h.Copyable w := by
  obtain ⟨st, hst⟩ := Node.mem_elements.1 hw
  exact hv.part (ρ := [st]) (follow_cons_eq_some.2 ⟨r, node, w, rfl, hr, hst, rfl⟩)

def Copying.Notes (s : Copying) (entered : List Ref) : Prop :=
  ∀ r ∈ entered, ∃ t, s.moved.lookup r = some t

theorem Copying.Notes.mono {entered : List Ref} (hn : s.Notes entered)
    (hg : Copying.Grows h s s') : s'.Notes entered := by
  intro r hr
  obtain ⟨t, ht⟩ := hn r hr
  exact ⟨t, hg.moved r t ht⟩

theorem Copying.Notes.reserve {entered : List Ref} {r : Ref} (hn : s.Notes entered)
    (hm : s.moved.lookup r = none) (p : Node) : (s.reserve r p).2.Notes (r :: entered) := by
  intro q hq
  rcases List.mem_cons.1 hq with rfl | hq
  · exact ⟨_, Copying.lookup_reserve_self s q p⟩
  · obtain ⟨t, ht⟩ := hn q hq
    exact ⟨t, Copying.moved_reserve hm p q t ht⟩

theorem Copying.Notes.not_mem {entered : List Ref} {r : Ref} (hn : s.Notes entered)
    (hm : s.moved.lookup r = none) : r ∉ entered := by
  intro hmem
  obtain ⟨t, ht⟩ := hn r hmem
  rw [hm] at ht
  cases ht

theorem Copies.each_total (hstep : Copies h step) {entered : List Ref} {xs : List Value}
    (hs : s.Sound h) (hn : s.Notes entered) (hx : ∀ x ∈ xs, h.Holds x)
    (ht : ∀ x ∈ xs, ∀ s, s.Sound h → s.Notes entered → ∃ p, step x s = .ok p) :
    ∃ p, copyEach step xs s = .ok p := by
  induction xs generalizing s with
  | nil => exact ⟨_, rfl⟩
  | cons x xs ih =>
    simp only [List.forall_mem_cons] at hx ht
    obtain ⟨⟨y, s₁⟩, hy⟩ := ht.1 s hs hn
    obtain ⟨hs₁, hg, _⟩ := hstep x s y s₁ hs hx.1 hy
    obtain ⟨⟨ys, s₂⟩, hys⟩ := ih hs₁ (hn.mono hg) hx.2 ht.2
    exact ⟨(y :: ys, s₂), bind_eq_ok.2 ⟨_, hy, bind_eq_ok.2 ⟨_, hys, rfl⟩⟩⟩

theorem Copies.entries_total (hstep : Copies h step) {entered : List Ref}
    {es : List (Value × Value)} (hs : s.Sound h) (hn : s.Notes entered)
    (hx : ∀ e ∈ es, h.Holds e.1 ∧ h.Holds e.2)
    (ht : ∀ e ∈ es, ∀ s, s.Sound h → s.Notes entered →
      (∃ p, step e.1 s = .ok p) ∧ ∃ p, step e.2 s = .ok p) :
    ∃ p, copyEntries step es s = .ok p := by
  induction es generalizing s with
  | nil => exact ⟨_, rfl⟩
  | cons e es ih =>
    simp only [List.forall_mem_cons] at hx ht
    obtain ⟨⟨a, s₁⟩, ha⟩ := (ht.1 s hs hn).1
    obtain ⟨hs₁, hg₁, _⟩ := hstep e.1 s a s₁ hs hx.1.1 ha
    obtain ⟨⟨b, s₂⟩, hb⟩ := (ht.1 s₁ hs₁ (hn.mono hg₁)).2
    obtain ⟨hs₂, hg₂, _⟩ := hstep e.2 s₁ b s₂ hs₁ hx.1.2 hb
    obtain ⟨⟨cs, s₃⟩, hcs⟩ := ih hs₂ ((hn.mono hg₁).mono hg₂) hx.2 ht.2
    exact ⟨((a, b) :: cs, s₃),
      bind_eq_ok.2 ⟨_, ha, bind_eq_ok.2 ⟨_, hb, bind_eq_ok.2 ⟨_, hcs, rfl⟩⟩⟩⟩

theorem copyWithin_total (hc : h.Closed) {n : Nat} {entered : List Ref} (hs : s.Sound h)
    (hv : h.Holds v) (hnest : h.Nested n entered v) (hcopy : h.Copyable v)
    (hn : s.Notes entered) : ∃ p, copyWithin n v s = .ok p := by
  induction n generalizing v s entered with
  | zero => exact hnest.elim
  | succ n ih =>
    cases hr : v.asRef? with
    | none =>
      rw [copyWithin_leaf n s hr, Value.agreesToCopy_eq_ok (hcopy [] v rfl)]
      exact ⟨_, rfl⟩
    | some r =>
      obtain rfl := Value.asRef?_eq_some.1 hr
      obtain ⟨node, hr⟩ := hv r rfl
      simp only [copyWithin, hs.keeps.keeps hr]
      cases hm : s.moved.lookup r with
      | some t => exact ⟨_, rfl⟩
      | none =>
        have hholds : ∀ x ∈ node.elements, h.Holds x := fun x hx => hc.holds_element hr hx
        have hall : ∀ x ∈ node.elements, ∀ s : Copying, s.Sound h →
            s.Notes (if node.isTuple then entered else r :: entered) →
            ∃ p, copyWithin n x s = .ok p := fun x hx s hs =>
          ih hs (hholds x hx) (hnest r node rfl (hn.not_mem hm) hr x hx) (hcopy.element hr hx)
        -- A place is reserved for a list, dictionary or set before its contents are copied.
        cases node with
        | list xs =>
          obtain ⟨p, hp⟩ := (copies_copyWithin hc n).each_total
            (hs.reserve_empty hr (.list []) rfl) (hn.reserve hm (.list [])) hholds hall
          exact ⟨_, bind_eq_ok.2 ⟨p, hp, rfl⟩⟩
        | set xs =>
          obtain ⟨p, hp⟩ := (copies_copyWithin hc n).each_total
            (hs.reserve_empty hr (.set []) rfl) (hn.reserve hm (.set [])) hholds hall
          exact ⟨_, bind_eq_ok.2 ⟨p, hp, rfl⟩⟩
        | dict es =>
          obtain ⟨p, hp⟩ := (copies_copyWithin hc n).entries_total
            (hs.reserve_empty hr (.dict []) rfl) (hn.reserve hm (.dict []))
            (fun e he => hc.holds_entry hr he) fun e he s hs hn =>
              have hmem := Node.mem_elements_entry he
              ⟨hall _ hmem.1 s hs hn, hall _ hmem.2 s hs hn⟩
          exact ⟨_, bind_eq_ok.2 ⟨p, hp, rfl⟩⟩
        | sealed ks msg => exact ⟨_, rfl⟩
        | tuple xs =>
          obtain ⟨⟨ys, s₁⟩, hp⟩ := (copies_copyWithin hc n).each_total hs hn hholds hall
          simp only [show copyEach (copyWithin n) xs s = .ok (ys, s₁) from hp, ok_bind]
          cases hm' : s₁.moved.lookup r with
          | some t => exact ⟨_, rfl⟩
          | none =>
            by_cases hxy : xs = ys
            · exact ⟨_, if_pos hxy⟩
            · exact ⟨_, if_neg hxy⟩

theorem copy_total (hc : h.Closed) (hv : h.Holds v) (hn : h.Nested h.depths.copy [] v)
    (hcopy : h.Copyable v) : ∃ w k, h.copy v = .ok (w, k) := by
  obtain ⟨⟨w, s⟩, hp⟩ :=
    copyWithin_total hc (Copying.sound_start (.refl h) hc) hv hn hcopy (List.forall_mem_nil _)
  exact ⟨w, s.heap, bind_eq_ok.2 ⟨(w, s), hp, rfl⟩⟩

theorem exists_isCopy (hc : h.Closed) (hv : h.Holds v) (hn : h.Nested h.depths.copy [] v)
    (ha : h.Copyable v) : ∃ m k, h.copy v = .ok (v.map m, k) ∧ h.IsCopy k m v (v.map m) := by
  obtain ⟨w, k, hcopy⟩ := copy_total hc hv hn ha
  obtain ⟨m, hm⟩ := isCopy_of_copy hc hv hcopy
  obtain rfl := hm.value
  exact ⟨m, k, hcopy, hm⟩

end Heap

end Promptbook
