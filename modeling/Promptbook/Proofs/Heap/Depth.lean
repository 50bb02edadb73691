import Mathlib.Order.Bounds.Defs
import Promptbook.Proofs.Body.Found
import Promptbook.Proofs.Heap.Loops

namespace Promptbook.Heap

open Relation

variable {h : Heap} {v w x : Value} {r : Ref} {xs : List Value} {n current d limit : Nat}
  {noted : List Ref} {node : Node} {children : Except Fault (List Value)}

/-- A value lies directly inside a list or mapping: it is an item of it or the value of a key. -/
def Entry (h : Heap) (v x : Value) : Prop :=
  ∃ xs, h.listed? v = some (.ok xs) ∧ x ∈ xs

/-- Only lists and dictionaries can be entered from a value, and no sealed mapping. -/
def Unbarred (h : Heap) (v : Value) : Prop :=
  ∀ w, ReflTransGen h.Entry v w → ∀ ks message, h.node? w ≠ some (.sealed ks message)

/-- Every trail through the lists and mappings in a value is shorter than a limit. -/
def EntriesWithin (h : Heap) (n : Nat) (v : Value) : Prop :=
  ∀ path, Trail h.Entry v path → path.length < n

def trailLengths (h : Heap) (noted : List Ref) (v : Value) : Set Nat :=
  {k | ∃ path, ClearTrail h.Entry noted v path ∧ path.length = k}

section Entry

theorem inside?_of_listed? (hl : h.listed? v = some children) : h.inside? v = some children := by
  rw [listed?] at hl
  rw [inside?]
  split at hl
  · next hn => rwa [hn]
  · next hn => rwa [hn]
  · next hn => rwa [hn]
  · cases hl

theorem exists_ref_of_listed? (hl : h.listed? v = some children) : ∃ r, v = .ref r :=
  exists_ref_of_inside? (inside?_of_listed? hl)

theorem Entry.child (hx : h.Entry v x) : h.Child v x := by
  obtain ⟨xs, hl, hx⟩ := hx
  exact ⟨xs, inside?_of_listed? hl, hx⟩

theorem entry_iff (hl : h.listed? v = some (.ok xs)) : h.Entry v x ↔ x ∈ xs := by
  constructor
  · rintro ⟨ys, hys, hx⟩
    cases hl.symm.trans hys
    exact hx
  · exact fun hx => ⟨xs, hl, hx⟩

theorem listed?_of_entries {es : List (Value × Value)}
    (hm : h.mapping? v = some (.entries es)) : h.listed? v = some (.ok (es.map (·.2))) := by
  obtain ⟨r, rfl, hr⟩ := exists_of_entries hm
  rw [listed?, node?_ref, hr]

theorem Entry.exists_slot (hx : h.Entry v x) :
    ∃ r node i, v = .ref r ∧ h.get? r = some node ∧ node.slot? i = some x := by
  obtain ⟨xs, hl, hx⟩ := hx
  obtain ⟨r, rfl⟩ := exists_ref_of_listed? hl
  cases ho : h.open? r with
  | none =>
    rw [listed?_of_shut ho hl rfl] at hx
    cases hx
  | some node =>
    cases hl.symm.trans (listed?_of_open ho)
    obtain ⟨i, hi⟩ := Node.mem_slots.1 hx
    exact ⟨r, node, i, rfl, (open?_eq_some.1 ho).1, hi⟩

theorem entry_of_slot {i : Nat} (hr : h.get? r = some node) (hx : node.slot? i = some x) :
    h.Entry (.ref r) x :=
  ⟨node.slots, listed?_of_open (open?_eq_some.2 ⟨hr, Node.isOpen_of_slot? hx⟩),
    Node.mem_slots.2 ⟨i, hx⟩⟩

theorem entry_of_field {m : Mapping} {name : String} (hm : h.mapping? v = some m)
    (hw : m.field name = .ok w) : w = .null ∨ h.Entry v w := by
  obtain rfl | ⟨i, hi⟩ := follow_of_field hm hw
  · exact .inl rfl
  · obtain ⟨r, node, u, rfl, hr, hu, ⟨⟩⟩ := follow_cons_eq_some.1 hi
    exact .inr (entry_of_slot hr hu)

theorem SealFree.unbarred (hf : h.SealFree) (v : Value) : h.Unbarred v := by
  intro w _ ks message hn
  obtain ⟨r, -, hr⟩ := exists_of_node? hn
  exact hf r ks message hr

theorem Unbarred.entry (hu : h.Unbarred v) (hx : h.Entry v x) : h.Unbarred x :=
  fun w hw => hu w (.head hx hw)

theorem Testable.entry (ht : h.Testable v) (hx : h.Entry v x) : h.Testable x := by
  obtain ⟨r, node, i, rfl, hr, hi⟩ := hx.exists_slot
  intro ρ w hw
  exact ht (.slot i :: ρ) w (follow_cons_eq_some.2 ⟨r, node, x, rfl, hr, hi, hw⟩)

theorem Unbarred.entries {m : Mapping} (hu : h.Unbarred v) (hm : h.mapping? v = some m) :
    ∃ es, m = .entries es := by
  rw [mapping?] at hm
  split at hm
  · next es _ => exact ⟨es, (Option.some.inj hm).symm⟩
  · next ks message hn => exact (hu v .refl ks message hn).elim
  · cases hm

theorem Unbarred.exists_listed (hu : h.Unbarred v) :
    h.listed? v = none ∨ ∃ r xs, v = .ref r ∧ h.listed? (.ref r) = some (.ok xs) := by
  cases hn : h.node? v with
  | none => exact .inl (by rw [listed?, hn])
  | some node =>
    obtain ⟨r, rfl, -⟩ := exists_of_node? hn
    cases node with
    | list xs => exact .inr ⟨r, xs, rfl, by rw [listed?, hn]⟩
    | dict es => exact .inr ⟨r, es.map (·.2), rfl, by rw [listed?, hn]⟩
    | tuple xs => exact .inl (by rw [listed?, hn])
    | set xs => exact .inl (by rw [listed?, hn])
    | «sealed» ks message => exact (hu _ .refl ks message hn).elim

theorem entriesWithin_of_size_lt (hn : h.nodes.size < n) (v : Value) : h.EntriesWithin n v :=
  fun _ ht => trailsWithin_of_size_lt hn v _ (ht.mono fun _ _ => Entry.child)

theorem EntriesWithin.mono {n' : Nat} (hw : h.EntriesWithin n v) (hle : n ≤ n') :
    h.EntriesWithin n' v :=
  fun path ht => Nat.lt_of_lt_of_le (hw path ht) hle

end Entry

section Longest

theorem zero_mem_trailLengths (h : Heap) (noted : List Ref) (v : Value) :
    0 ∈ h.trailLengths noted v :=
  ⟨[], clearTrail_nil _ _ _, rfl⟩

theorem succ_mem_trailLengths_iff :
    n + 1 ∈ h.trailLengths noted (.ref r) ↔
      r ∉ noted ∧ ∃ x, h.Entry (.ref r) x ∧ n ∈ h.trailLengths (r :: noted) x := by
  constructor
  · rintro ⟨_ | ⟨x, path⟩, ht, hlength⟩
    · cases hlength
    · obtain ⟨hr, hx, ht⟩ := clearTrail_cons_iff.1 ht
      exact ⟨hr, x, hx, path, ht, Nat.succ.inj hlength⟩
  · rintro ⟨hr, x, hx, path, ht, rfl⟩
    exact ⟨x :: path, clearTrail_cons_iff.2 ⟨hr, hx, ht⟩, rfl⟩

theorem isGreatest_zero (hv : ∀ x, ¬ h.Entry v x) : IsGreatest (h.trailLengths noted v) 0 := by
  refine ⟨zero_mem_trailLengths h noted v, ?_⟩
  rintro _ ⟨_ | ⟨x, path⟩, ht, rfl⟩
  · exact Nat.le_refl 0
  · cases ht.chain with
    | cons_cons hvx _ => exact (hv x hvx).elim

theorem isGreatest_of_noted (h : Heap) (hr : r ∈ noted) :
    IsGreatest (h.trailLengths noted (.ref r)) 0 := by
  refine ⟨zero_mem_trailLengths h noted (.ref r), ?_⟩
  rintro (_ | n) hn
  · exact Nat.le_refl 0
  · exact ((succ_mem_trailLengths_iff.1 hn).1 hr).elim

theorem depthWithin_of_unlisted (noted : List Ref) (hl : h.listed? v = none) :
    h.depthWithin (n + 1) current noted v = .ok current := by
  rw [depthWithin, hl]
  cases v.asRef? <;> rfl

theorem depthWithin_of_noted (hl : h.listed? (.ref r) = some children) (hr : r ∈ noted) :
    h.depthWithin (n + 1) current noted (.ref r) = .ok current := by
  simp only [depthWithin, Value.asRef?, hl, if_pos hr]

theorem depthWithin_of_listed (hl : h.listed? (.ref r) = some children) (hr : r ∉ noted) :
    h.depthWithin (n + 1) current noted (.ref r) =
      children >>= maxOk (h.depthWithin n (current + 1) (r :: noted)) current := by
  simp only [depthWithin, Value.asRef?, hl, if_neg hr]

/-- A depth that is found is the length of the longest clear trail. -/
theorem longest_of_depthWithin (hd : h.depthWithin n current noted v = .ok d) :
    ∃ k, d = current + k ∧ IsGreatest (h.trailLengths noted v) k := by
  induction n generalizing current noted v d with
  | zero => cases hd
  | succ n ih =>
    cases hl : h.listed? v with
    | none =>
      rw [depthWithin_of_unlisted noted hl] at hd
      refine ⟨0, (Except.ok.inj hd).symm, isGreatest_zero ?_⟩
      rintro x ⟨xs, hxs, -⟩
      cases hl.symm.trans hxs
    | some children =>
      obtain ⟨r, rfl⟩ := exists_ref_of_listed? hl
      by_cases hr : r ∈ noted
      · rw [depthWithin_of_noted hl hr] at hd
        exact ⟨0, (Except.ok.inj hd).symm, isGreatest_of_noted h hr⟩
      · rw [depthWithin_of_listed hl hr, bind_eq_ok] at hd
        obtain ⟨xs, rfl, hd⟩ := hd
        obtain ⟨hle, hall, hattained⟩ := maxOk_eq_ok hd
        refine ⟨d - current, (Nat.add_sub_cancel' hle).symm, ?_, ?_⟩
        · obtain rfl | ⟨x, hx, hdx⟩ := hattained
          · rw [Nat.sub_self]
            exact zero_mem_trailLengths _ _ _
          · obtain ⟨k, rfl, hk⟩ := ih hdx
            have hsub : current + 1 + k - current = k + 1 := by omega
            rw [hsub]
            exact succ_mem_trailLengths_iff.2 ⟨hr, x, (entry_iff hl).2 hx, hk.1⟩
        · rintro (_ | j) hj
          · exact Nat.zero_le _
          · obtain ⟨-, x, hx, hj⟩ := succ_mem_trailLengths_iff.1 hj
            obtain ⟨e, he, hdx⟩ := hall x ((entry_iff hl).1 hx)
            obtain ⟨k, rfl, hk⟩ := ih hdx
            have hjk : j ≤ k := hk.2 hj
            omega

theorem depthWithin_returns (hu : h.Unbarred v) (ht : ∀ k ∈ h.trailLengths noted v, k < n) :
    ∃ d, h.depthWithin n current noted v = .ok d := by
  induction n generalizing current noted v with
  | zero => exact (Nat.not_lt_zero _ (ht 0 (zero_mem_trailLengths _ _ _))).elim
  | succ n ih =>
    obtain hl | ⟨r, xs, rfl, hl⟩ := hu.exists_listed
    · exact ⟨current, depthWithin_of_unlisted noted hl⟩
    · by_cases hr : r ∈ noted
      · exact ⟨current, depthWithin_of_noted hl hr⟩
      · rw [depthWithin_of_listed hl hr, ok_bind]
        apply maxOk_total
        intro x hx
        have hentry : h.Entry (.ref r) x := (entry_iff hl).2 hx
        refine ih (hu.entry hentry) fun k hk => Nat.lt_of_succ_lt_succ (ht (k + 1) ?_)
        exact succ_mem_trailLengths_iff.2 ⟨hr, x, hentry, hk⟩

theorem EntriesWithin.trailLengths_lt (hw : h.EntriesWithin n v) :
    ∀ k ∈ h.trailLengths noted v, k < n := by
  rintro _ ⟨path, ht, rfl⟩
  exact hw path ht.toTrail

theorem measureWithin_longest (hu : h.Unbarred v) (hw : h.EntriesWithin n v) (current : Nat)
    (noted : List Ref) : ∃ d, h.measureWithin n current v noted = .ok (current + d, noted) ∧
      IsGreatest (h.trailLengths noted v) d := by
  obtain ⟨e, he⟩ : ∃ e, h.depthWithin n current noted v = .ok e :=
    depthWithin_returns hu hw.trailLengths_lt
  obtain ⟨d, rfl, hd⟩ := longest_of_depthWithin he
  exact ⟨d, by rw [measureWithin_eq, he]; rfl, hd⟩

theorem trailLengths_nil :
    h.trailLengths [] v = {k | ∃ path, Trail h.Entry v path ∧ path.length = k} := by
  simp only [trailLengths, clearTrail_iff_trail]

theorem longest_of_depth (hd : h.depth v = .ok d) :
    IsGreatest {k | ∃ path, Trail h.Entry v path ∧ path.length = k} d := by
  rw [depth_eq_within] at hd
  obtain ⟨k, rfl, hk⟩ := longest_of_depthWithin hd
  rw [Nat.zero_add, ← trailLengths_nil]
  exact hk

theorem depth_returns (hu : h.Unbarred v) (hw : h.EntriesWithin walkLimit v) :
    ∃ d, h.depth v = .ok d := by
  rw [depth_eq_within]
  exact depthWithin_returns hu hw.trailLengths_lt

theorem lt_depth_iff (hd : h.depth v = .ok d) :
    limit < d ↔ ∃ path, Trail h.Entry v path ∧ limit < path.length := by
  obtain ⟨⟨path, ht, rfl⟩, hmax⟩ := longest_of_depth hd
  constructor
  · exact fun hlt => ⟨path, ht, hlt⟩
  · rintro ⟨longer, ht, hlt⟩
    exact Nat.lt_of_lt_of_le hlt (hmax ⟨longer, ht, rfl⟩)

end Longest

end Promptbook.Heap
