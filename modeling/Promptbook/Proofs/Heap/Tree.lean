import Promptbook.Proofs.Heap.Depth
import Promptbook.Proofs.Matched

namespace Promptbook.Heap

open Relation

variable {h k : Heap} {v w x y : Value} {n current : Nat} {noted noted' : List Ref}
  {xs ys : List Value}

def EntriesAlike (R : Value → Value → Prop) (h k : Heap) : Prop :=
  ∀ v w, R v w → Option.Rel (Matched (List.Forall₂ R)) (h.listed? v) (k.listed? w)

/-- Two values unfold into the same tree of lists and mappings, whichever containers are shared in
their heaps. -/
def SameTree (h : Heap) (v : Value) (k : Heap) (w : Value) : Prop :=
  ∃ R, EntriesAlike R h k ∧ R v w

/-- Some list or mapping inside a value, or the value itself, contains itself. -/
def Circles (h : Heap) (v : Value) : Prop :=
  ∃ c, ReflTransGen h.Entry v c ∧ TransGen h.Entry c c

theorem SameTree.inv (hs : SameTree h v k w) :
    (h.listed? v = none ∧ k.listed? w = none) ∨
    (∃ cause, h.listed? v = some (.error cause) ∧ k.listed? w = some (.error cause)) ∨
    ∃ xs ys, h.listed? v = some (.ok xs) ∧ k.listed? w = some (.ok ys) ∧
      List.Forall₂ (SameTree h · k ·) xs ys := by
  obtain ⟨R, hR, hvw⟩ := hs
  have hlift : ∀ x y, R x y → SameTree h x k y := fun x y hxy => ⟨R, hR, hxy⟩
  have hrel := hR v w hvw
  cases hl : h.listed? v <;> cases hk : k.listed? w <;> rw [hl, hk] at hrel <;> cases hrel
  case none.none => exact .inl ⟨rfl, rfl⟩
  case some.some hm =>
    right
    cases hm with
    | error cause => exact .inl ⟨cause, rfl, rfl⟩
    | ok hxy => exact .inr ⟨_, _, rfl, rfl, hxy.imp hlift⟩

theorem SameTree.entry (hs : SameTree h v k w) (hy : k.Entry w y) :
    ∃ x, h.Entry v x ∧ SameTree h x k y := by
  obtain ⟨zs, hzs, hy⟩ := hy
  obtain ⟨-, hk⟩ | ⟨cause, -, hk⟩ | ⟨xs, ys, hl, hk, hxy⟩ := hs.inv
  · cases hk.symm.trans hzs
  · cases hk.symm.trans hzs
  · cases hk.symm.trans hzs
    obtain ⟨i, hi, rfl⟩ := List.mem_iff_getElem.1 hy
    have hi' : i < xs.length := hxy.length_eq ▸ hi
    exact ⟨xs[i], ⟨xs, hl, List.getElem_mem hi'⟩, hxy.get hi' hi⟩

theorem Circles.head (hx : h.Entry v x) (hc : h.Circles x) : h.Circles v := by
  obtain ⟨c, hxc, hloop⟩ := hc
  exact ⟨c, .head hx hxc, hloop⟩

theorem Circles.exists_entry (hc : h.Circles v) : ∃ x, h.Entry v x ∧ h.Circles x := by
  obtain ⟨c, hvc, hloop⟩ := hc
  rcases hvc.cases_head with rfl | ⟨x, hx, hxc⟩
  · obtain ⟨x, hx, hback⟩ := TransGen.head'_iff.1 hloop
    exact ⟨x, hx, v, hback, hloop⟩
  · exact ⟨x, hx, c, hxc, hloop⟩

theorem Within.not_circles (hw : h.Within n v) : ¬ h.Circles v := by
  induction n generalizing v with
  | zero => exact hw.elim
  | succ n ih =>
    intro hc
    obtain ⟨x, hx, hcx⟩ := hc.exists_entry
    obtain ⟨r, node, i, rfl, hr, hi⟩ := hx.exists_slot
    exact ih (hw r node rfl hr x (Node.mem_elements.2 ⟨.slot i, hi⟩)) hcx

/-- No endless way leads into a value that does not contain itself, since none is longer than its
trails. -/
theorem acc_of_not_circles (hv : ¬ h.Circles v) (hw : h.EntriesWithin n v) :
    Acc (Function.swap h.Entry) v := by
  induction n generalizing v with
  | zero => exact (Nat.not_lt_zero _ (hw [] (.nil _ _))).elim
  | succ n ih =>
    refine ⟨v, fun x hx => ih (fun hc => hv (hc.head hx)) fun path ht => ?_⟩
    have hself : v ∉ (x :: path).dropLast := fun hmem =>
      hv ⟨v, .refl, .head' hx (ht.reaches v (List.mem_of_mem_dropLast hmem))⟩
    exact Nat.lt_of_succ_lt_succ (hw (x :: path) (ht.cons hx hself))

theorem not_transGen_self (hv : Acc (Function.swap h.Entry) v) : ¬ TransGen h.Entry v v := by
  induction hv with
  | intro v _ ih =>
    intro hloop
    obtain ⟨x, hx, hback⟩ := TransGen.head'_iff.1 hloop
    exact ih x hx (.tail' hback hx)

theorem SameTree.acc (hs : SameTree h v k w) (hv : Acc (Function.swap h.Entry) v) :
    Acc (Function.swap k.Entry) w := by
  induction hv generalizing w with
  | intro v _ ih =>
    refine ⟨w, fun y hy => ?_⟩
    obtain ⟨x, hx, hxy⟩ := hs.entry hy
    exact ih x hx hxy

theorem maxOk_congr {f g : Value → Except Fault Nat}
    (hfg : List.Forall₂ (fun x y => g y = f x) xs ys) (deepest : Nat) :
    maxOk g deepest ys = maxOk f deepest xs := by
  induction hfg generalizing deepest with
  | nil => rfl
  | cons hxy _ ih => simp only [maxOk, hxy, ih]

/-- No container on the way to a value without loops is met again, so that two values of the same
tree are measured in the same steps. -/
theorem SameTree.depthWithin_eq (hs : SameTree h v k w) (hv : Acc (Function.swap h.Entry) v)
    (hnoted : ∀ r ∈ noted, TransGen h.Entry (.ref r) v)
    (hnoted' : ∀ r ∈ noted', TransGen k.Entry (.ref r) w) :
    k.depthWithin n current noted' w = h.depthWithin n current noted v := by
  induction n generalizing current noted noted' v w with
  | zero => rfl
  | succ n ih =>
    -- Only at a container that is noted could sharing make a difference.
    have hin (r : Ref) (he : v = .ref r) : r ∉ noted := fun hr =>
      not_transGen_self hv (he ▸ hnoted r hr)
    have hin' (q : Ref) (he : w = .ref q) : q ∉ noted' := fun hq =>
      not_transGen_self (hs.acc hv) (he ▸ hnoted' q hq)
    obtain ⟨hl, hk⟩ | ⟨cause, hl, hk⟩ | ⟨xs, ys, hl, hk, hxy⟩ := hs.inv
    · rw [depthWithin_of_unlisted noted hl, depthWithin_of_unlisted noted' hk]
    · obtain ⟨r, rfl⟩ := exists_ref_of_listed? hl
      obtain ⟨q, rfl⟩ := exists_ref_of_listed? hk
      rw [depthWithin_of_listed hl (hin r rfl), depthWithin_of_listed hk (hin' q rfl)]
      rfl
    · obtain ⟨r, rfl⟩ := exists_ref_of_listed? hl
      obtain ⟨q, rfl⟩ := exists_ref_of_listed? hk
      rw [depthWithin_of_listed hl (hin r rfl), depthWithin_of_listed hk (hin' q rfl), ok_bind,
        ok_bind]
      refine maxOk_congr (List.forall₂_iff_zip.2 ⟨hxy.length_eq, fun {x y} hmem => ?_⟩) current
      obtain ⟨hx, hy⟩ := List.of_mem_zip hmem
      have hrx : h.Entry (.ref r) x := ⟨xs, hl, hx⟩
      have hqy : k.Entry (.ref q) y := ⟨ys, hk, hy⟩
      refine ih (List.forall₂_zip hxy hmem) (hv.inv hrx) ?_ ?_
      · exact List.forall_mem_cons.2 ⟨.single hrx, fun p hp => (hnoted p hp).tail hrx⟩
      · exact List.forall_mem_cons.2 ⟨.single hqy, fun p hp => (hnoted' p hp).tail hqy⟩

/-- However containers are shared, a value that does not contain itself has the depth of its
tree. -/
theorem SameTree.depth_eq (hs : SameTree h v k w) (hv : ¬ h.Circles v) : k.depth w = h.depth v := by
  rw [depth_eq_within, depth_eq_within]
  exact hs.depthWithin_eq (acc_of_not_circles hv (entriesWithin_of_size_lt (Nat.lt_succ_self _) v))
    (List.forall_mem_nil _) (List.forall_mem_nil _)

theorem Expands.sameTree {m : Ref → Ref} {b c : Ref} (hx : h.Expands m b c) (hc : h.Closed)
    (hh : h.Holds (.ref c)) : SameTree h (.ref b) h (.ref c) := by
  refine ⟨fun v w => v = w.map m ∧ ∀ r, w = .ref r → h.Reaches (.ref c) r, ?_, ?_, ?_⟩
  · rintro _ w ⟨rfl, hw⟩
    rw [listed?_map (hx.node?_image hc hh hw)]
    cases hl : h.listed? w with
    | none => exact .none
    | some children =>
      cases children with
      | error cause => exact .some (.error cause)
      | ok xs =>
        refine .some (.ok (List.forall₂_map_left_iff.2 (List.forall₂_same.2 fun x hx => ⟨rfl, ?_⟩)))
        obtain ⟨r, node, i, rfl, hr, hi⟩ := Entry.exists_slot ⟨xs, hl, hx⟩
        exact Expands.reaches_slot (hw r rfl) hr hi
  · rw [Value.map_ref, hx.root]
  · rintro r ⟨⟩
    exact .refl h c

end Promptbook.Heap
