import Promptbook.Proofs.Heap.Parts

namespace Promptbook

/-- A value that can be written in a file, unlike a member of a taxonomy, the undefined marker or an
object from outside. -/
def Value.isLiteral : Value → Bool
  | undefined | kind _ | category _ | foreign _ => false
  | _ => true

theorem Value.isTestable_of_isLiteral {v : Value} (hv : v.isLiteral = true) :
    v.isTestable = true := by
  cases v <;> first | rfl | cases hv

theorem Value.text_of_isLiteral {v : Value} {s : String} (hv : v.isLiteral = true)
    (hs : v.asText? = some s) : v = .text s := by
  cases v with
  | text t =>
    obtain rfl := Option.some.inj hs
    rfl
  | kind d | category c => cases hv
  | _ => cases hs

namespace Heap

variable {h : Heap} {v w : Value} {m : Mapping} {name s : String}

structure Literal (h : Heap) (v : Value) : Prop where
  unsealed : h.Unsealed v
  parts : ∀ ρ w, h.follow ρ v = some w → w.isLiteral = true

namespace Literal

theorem of_elements (hu : h.Unsealed v) (hv : ∀ w ∈ v :: h.elements, w.isLiteral = true) :
    h.Literal v :=
  ⟨hu, fun _ w hw => hv w (mem_of_follow hw)⟩

theorem isLiteral_field (hl : h.Literal v) (hm : h.mapping? v = some m)
    (hw : m.field name = .ok w) : w.isLiteral = true := by
  obtain rfl | ⟨i, hi⟩ := follow_of_field hm hw
  · rfl
  · exact hl.parts _ w hi

theorem isTestable_field (hl : h.Literal v) (hm : h.mapping? v = some m)
    (hw : m.field name = .ok w) : w.isTestable = true :=
  Value.isTestable_of_isLiteral (hl.isLiteral_field hm hw)

theorem field (hl : h.Literal v) (hm : h.mapping? v = some m) (hw : m.field name = .ok w) :
    h.Literal w where
  unsealed := hl.unsealed.field hm hw
  parts ρ x hx := by
    obtain rfl | ⟨i, hi⟩ := follow_of_field hm hw
    · cases ρ with
      | nil =>
        obtain rfl := Option.some.inj hx
        rfl
      | cons st ρ => cases hx
    · exact hl.parts ([.slot i] ++ ρ) x (by rw [follow_append, hi]; exact hx)

theorem field_text (hl : h.Literal v) (hm : h.mapping? v = some m) (hw : m.field name = .ok w)
    (hs : w.asText? = some s) : w = .text s :=
  Value.text_of_isLiteral (hl.isLiteral_field hm hw) hs

end Literal

end Heap

end Promptbook
