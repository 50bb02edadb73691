import Promptbook.Proofs.Files.Data
import Promptbook.Proofs.Prompt.Shifted

namespace Promptbook

namespace Heap

variable {h k l : Heap} {v w x : Value} {xs vs ws : List Value} {es : Entries Value} {m : Mapping}

theorem SealFree.unsealed (hf : h.SealFree) : h.Unsealed v :=
  fun r ks message _ => hf r ks message

section Closed

variable (hc : h.Closed) (hf : h.SealFree)
include hc

theorem recordMapping_field {data : Value} {name : String} (hm : h.recordMapping data = .ok m)
    (hv : m.field name = .ok v) : h.Holds v := by
  rw [recordMapping, bind_eq_ok] at hm
  obtain ⟨given, -, hm⟩ := hm
  split at hm
  · exact hc.holds_field (asMapping_eq_ok.1 hm) hv
  · cases hm
    cases hv
    exact holds_of_not_ref (fun _ he => by cases he)

include hf

theorem Closed.holds_item (hv : h.Holds v) (hi : h.iterate v = .ok xs) :
    ∀ x ∈ xs, h.Holds x := by
  intro x hx
  obtain ⟨hx, -⟩ | ⟨st, hst⟩ := follow_of_iterate hf.unsealed hi hx
  · exact holds_of_not_ref fun r he => by
      rw [he] at hx
      cases hx
  · exact hc.holds_follow hv hst

theorem Closed.holds_entriesOfPairs {index : Nat} {done : Entries Value}
    (hdone : ∀ e ∈ done, h.Holds e.1 ∧ h.Holds e.2) (hxs : ∀ x ∈ xs, h.Holds x)
    (hrun : h.entriesOfPairs index done xs = .ok es) : ∀ e ∈ es, h.Holds e.1 ∧ h.Holds e.2 := by
  induction xs generalizing index done with
  | nil =>
    cases hrun
    exact hdone
  | cons x xs ih =>
    obtain ⟨hx, hxs⟩ := List.forall_mem_cons.1 hxs
    obtain ⟨e, he, hrun⟩ := bind_eq_ok.1 hrun
    refine ih (Entries.forall_mem_put hdone ?_ ?_) hxs hrun
    all_goals
      rw [entryOf] at he
      split at he
      · next key y hi =>
        obtain ⟨_, -, he⟩ := bind_eq_ok.1 he
        cases he
        exact hc.holds_item hf hx hi _ (by simp)
      · cases he
      · cases he

theorem Closed.holds_entriesOf (hv : h.Holds v) (hrun : h.entriesOf v = .ok es) :
    ∀ e ∈ es, h.Holds e.1 ∧ h.Holds e.2 := by
  rw [entriesOf] at hrun
  cases hm : h.mapping? v with
  | some m =>
    rw [hm] at hrun
    cases m with
    | entries fs =>
      cases hrun
      exact hc.holds_mapping hm
    | «sealed» ks message => exact (hf.mapping? hm).elim
  | none =>
    rw [hm] at hrun
    obtain ⟨xs, hi, hrun⟩ := bind_eq_ok.1 hrun
    exact hc.holds_entriesOfPairs hf (List.forall_mem_nil _) (hc.holds_item hf hv hi) hrun

end Closed

structure Builds (h k : Heap) (vs : List Value) : Prop where
  adds : h.Adds k
  sealFree : k.SealFree
  holds : ∀ v ∈ vs, k.Holds v

theorem Builds.then (hb : h.Builds k vs) (hb' : k.Builds l ws) : h.Builds l (vs ++ ws) where
  adds := hb.adds.trans hb'.adds
  sealFree := hb'.sealFree
  holds := List.forall_mem_append.2 ⟨fun v hv => hb'.adds.keeps.holds (hb.holds v hv), hb'.holds⟩

theorem Builds.mono (hb : h.Builds k vs) (hws : ∀ w ∈ ws, w ∈ vs ∨ h.Holds w) : h.Builds k ws where
  adds := hb.adds
  sealFree := hb.sealFree
  holds := fun w hw => (hws w hw).elim (hb.holds w) hb.adds.keeps.holds

section Builds

variable (hc : h.Closed) (hf : h.SealFree) (hv : h.Holds v)
include hc hf hv

theorem builds_newListOr (hrun : h.newListOr v = .ok (w, k)) : h.Builds k [w] := by
  obtain ⟨xs, hk, hxs⟩ := newListOr_eq_ok hrun
  cases hk
  refine ⟨.store hc fun x hx => ?_, hf.store (fun _ _ he => by cases he),
    List.forall_mem_singleton.2 (holds_store h _)⟩
  obtain ⟨ys, hi, hin⟩ := hxs x hx
  exact hc.holds_item hf hv hi x hin

theorem builds_newDictOr (hrun : h.newDictOr v = .ok (w, k)) : h.Builds k [w] := by
  obtain ⟨es, hk, hes⟩ := newDictOr_eq_ok hrun
  cases hk
  refine ⟨.store hc (forall_mem_elements ?_), hf.store (fun _ _ he => by cases he),
    List.forall_mem_singleton.2 (holds_store h _)⟩
  cases hes with
  | inl hnil =>
    subst hnil
    exact List.forall_mem_nil _
  | inr hes => exact hc.holds_entriesOf hf hv hes

end Builds

end Heap

open Heap (Builds)

variable {h k : Heap} {data : Value} (hc : h.Closed) (hf : h.SealFree)
include hc hf

theorem Hints.builds_ofValue {hints : Hints} (hrun : Hints.ofValue h data = .ok (hints, k)) :
    h.Builds k hints.parts := by
  simp only [ofValue, bind_eq_ok, Prod.exists] at hrun
  obtain ⟨m, hm, languages, hl, w, k₁, hrun₁, context, hcontext, w', k₂, hrun₂, notes, hnotes,
    legacy, -, given, -, hrun⟩ := hrun
  cases hrun
  have hb₁ := Heap.builds_newListOr hc hf (Heap.recordMapping_field hc hm hl) hrun₁
  have hheld := hb₁.adds.keeps.holds (Heap.recordMapping_field hc hm hcontext)
  have hb₂ := Heap.builds_newListOr hb₁.adds.closed hb₁.sealFree hheld hrun₂
  apply (hb₁.then hb₂).mono
  intro v hv
  simp only [parts, List.mem_cons, List.not_mem_nil, or_false] at hv
  rcases hv with rfl | rfl | rfl | rfl
  · exact .inl (by simp)
  · exact .inl (by simp)
  · exact .inr (Heap.recordMapping_field hc hm hnotes)
  · exact .inr (Heap.holds_of_not_ref (fun _ he => by cases he))

theorem Options.builds_ofValue {o : Options} (hrun : Options.ofValue h data = .ok (o, k)) :
    h.Builds k o.parts := by
  simp only [ofValue, bind_eq_ok, Prod.exists] at hrun
  obtain ⟨m, hm, fields, hfields, w₁, k₁, hrun₁, defaults, hdefaults, w₂, k₂, hrun₂, rules, hrules,
    w₃, k₃, hrun₃, focus, hfocus, threshold, hthreshold, hrun⟩ := hrun
  cases hrun
  have hfield {name : String} {v : Value} (hv : m.field name = .ok v) : h.Holds v :=
    Heap.recordMapping_field hc hm hv
  have hb₁ := Heap.builds_newListOr hc hf (hfield hfields) hrun₁
  have hb₂ := hb₁.then <| Heap.builds_newDictOr hb₁.adds.closed hb₁.sealFree
    (hb₁.adds.keeps.holds (hfield hdefaults)) hrun₂
  have hb₃ := hb₂.then <| Heap.builds_newDictOr hb₂.adds.closed hb₂.sealFree
    (hb₂.adds.keeps.holds (hfield hrules)) hrun₃
  apply hb₃.mono
  intro v hv
  simp only [parts, List.mem_cons, List.not_mem_nil, or_false] at hv
  rcases hv with rfl | rfl | rfl | rfl | rfl
  · exact .inl (by simp)
  · exact .inl (by simp)
  · exact .inl (by simp)
  · exact .inr (hfield hfocus)
  · exact .inr (hfield hthreshold)

namespace Prompt

omit hc hf in
theorem holds_textField {m : Mapping} {name default : String} {v : Value}
    (hv : textField h m name default = .ok v) : k.Holds v := by
  obtain ⟨o, -, hv⟩ := bind_eq_ok.1 hv
  obtain ⟨t, -, hv⟩ := bind_eq_ok.1 hv
  cases hv
  exact Heap.holds_text k t

/-- A prompt made of data in a closed heap refers to nothing that is not there. -/
theorem builds_ofValue {serial : Nat} {p : Prompt}
    (hrun : Prompt.ofValue h serial data = .ok (p, k)) :
    h.Builds k p.parts := by
  simp only [Prompt.ofValue, bind_ite, bind_eq_ok, Prod.exists] at hrun
  obtain ⟨m, hm, cf, -, cg, -, b, hb, id, hid, given, hgiven, named, -, name, hname, df, hdf, desc,
    hdesc, c, -, version, hversion, sv, hsv, config, hconfig, o, k₁, ho, given', -, hinted, htruth,
    hints, k', hhints, author, hauthor, created, hcreated, modified, hmodified, hrun⟩ := hrun
  cases hrun
  have hfield {name : String} {v : Value} (hv : m.field name = .ok v) : h.Holds v :=
    hc.holds_field (Heap.asMapping_eq_ok.1 hm) hv
  have hoptions := Options.builds_ofValue hc hf ho
  have hboth : h.Builds k (o.parts ++ (hints.map Hints.parts).getD []) := by
    obtain ⟨-, rfl, rfl⟩ | ⟨-, made, rfl, hmade⟩ := hints_eq_ok htruth hhints
    · simpa using hoptions
    · exact hoptions.then (Hints.builds_ofValue hoptions.adds.closed hoptions.sealFree hmade)
  have hdescHeld : h.Holds desc := by
    simp only [Heap.orElse, bind_eq_ok, pure_eq_ok] at hdesc
    obtain ⟨chosen, -, rfl⟩ := hdesc
    split
    · exact hfield hdf
    · exact Heap.holds_text h ""
  have hbody : h.Holds (if k.isDict b then b else .null) := by
    split
    · exact hfield hb
    · exact Heap.holds_of_not_ref (fun _ he => by cases he)
  have hnamed : h.Holds name := by
    split at hname
    · obtain ⟨t, -, rfl⟩ := map_eq_ok.1 hname
      exact Heap.holds_text h t
    · exact holds_textField hname
  apply hboth.mono
  intro v hv
  rw [parts, List.append_assoc, List.mem_append] at hv
  obtain hv | hv := hv
  · right
    revert v
    simp only [List.forall_mem_cons]
    exact ⟨holds_textField hid, hnamed, hbody, hdescHeld, holds_textField hversion, holds_textField hsv,
      hfield hauthor, hfield hcreated, hfield hmodified, List.forall_mem_nil _⟩
  · exact .inl hv

end Prompt

end Promptbook
