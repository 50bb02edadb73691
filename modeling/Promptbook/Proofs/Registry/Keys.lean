import Mathlib.Data.List.Induction
import Mathlib.Data.List.Nodup
import Promptbook.Heap.Equal

namespace Promptbook

/-- The value is a text, and not the empty one. -/
def Value.Worded (v : Value) : Prop :=
  ∃ t, v.asText? = some t ∧ t ≠ ""

namespace Heap

variable {h : Heap} {a b : Value} {s t : String}

theorem node?_of_asText (ha : a.asText? = some s) : h.node? a = none := by
  cases a <;> first | rfl | simp at ha

theorem unhashableWithin_of_asText (n : Nat) (ha : a.asText? = some s) :
    h.unhashableWithin (n + 1) a = .ok none := by
  rw [unhashableWithin, node?_of_asText ha]

theorem equalWithin_of_asText (n : Nat) (ha : a.asText? = some s) (hb : b.asText? = some t) :
    h.equalWithin (n + 1) a b = .ok (s == t) := by
  rw [equalWithin, node?_of_asText ha, node?_of_asText hb]
  simp only [Value.sameLeaf, ha, hb]

theorem walkLimit_eq_succ : ∃ n, walkLimit = n + 1 := ⟨999, rfl⟩

theorem checkKey_of_asText (ha : a.asText? = some s) : h.checkKey a = .ok () := by
  obtain ⟨n, hn⟩ := walkLimit_eq_succ
  rw [checkKey, hn, unhashableWithin_of_asText n ha]
  rfl

theorem sameKey_of_asText (ha : a.asText? = some s) (hb : b.asText? = some t) :
    h.sameKey a b = (s == t) := by
  obtain ⟨n, hn⟩ := walkLimit_eq_succ
  rw [sameKey, equal, hn, equalWithin_of_asText n ha hb]

end Heap

namespace Value.Worded

variable {h : Heap} {a b : Value}

theorem checkKey (ha : a.Worded) : h.checkKey a = .ok () := by
  obtain ⟨s, hs, -⟩ := ha
  exact Heap.checkKey_of_asText hs

theorem sameKey_iff (ha : a.Worded) (hb : b.Worded) :
    h.sameKey a b = true ↔ a.asText? = b.asText? := by
  obtain ⟨s, hs, -⟩ := ha
  obtain ⟨t, ht, -⟩ := hb
  rw [Heap.sameKey_of_asText hs ht, hs, ht, beq_iff_eq, Option.some.injEq]

theorem truth (ha : a.Worded) : h.truth a = .ok true := by
  obtain ⟨s, hs, hne⟩ := ha
  cases a with
  | text t =>
    obtain rfl := Option.some.inj hs
    simp [Heap.truth, Heap.truthy, hne]
  | kind k => rfl
  | category c => rfl
  | _ => simp [asText?] at hs

end Value.Worded

namespace Entries

variable {α β : Type} {h : Heap} {es : Entries β} {key : Value} {s : String} {t : Option String}
  {x y : β}

def Under (es : Entries β) (t : Option String) (x : β) : Prop :=
  ∃ e ∈ es, e.1.asText? = t ∧ e.2 = x

structure Keyed (es : Entries β) : Prop where
  worded : ∀ e ∈ es, e.1.Worded
  nodup : (es.map fun e => e.1.asText?).Nodup

@[simp] theorem under_nil : ¬ Under ([] : Entries β) t x := by
  rintro ⟨e, he, -⟩
  cases he

theorem under_cons {e : Value × β} :
    Under (e :: es) t x ↔ (e.1.asText? = t ∧ e.2 = x) ∨ Under es t x := by
  simp [Under]

theorem Under.mem_keys (hu : Under es t x) : t ∈ es.map fun e => e.1.asText? := by
  obtain ⟨e, he, rfl, -⟩ := hu
  exact List.mem_map_of_mem he

theorem mem_keys_iff : (t ∈ es.map fun e => e.1.asText?) ↔ ∃ x, Under es t x := by
  constructor
  · intro ht
    obtain ⟨e, he, rfl⟩ := List.mem_map.1 ht
    exact ⟨e.2, e, he, rfl, rfl⟩
  · rintro ⟨x, hx⟩
    exact hx.mem_keys

theorem keyed_nil : Keyed ([] : Entries β) :=
  ⟨fun _ he => (List.not_mem_nil he).elim, List.nodup_nil⟩

namespace Keyed

theorem tail {e : Value × β} (hk : Keyed (e :: es)) : Keyed es :=
  ⟨fun f hf => hk.worded f (List.mem_cons_of_mem _ hf), (List.nodup_cons.1 hk.nodup).2⟩

theorem not_under {e : Value × β} (hk : Keyed (e :: es)) : ¬ Under es e.1.asText? x :=
  fun hu => (List.nodup_cons.1 hk.nodup).1 hu.mem_keys

theorem filter (hk : Keyed es) (f : Value × β → Bool) : Keyed (es.filter f) :=
  ⟨fun e he => hk.worded e (List.mem_of_mem_filter he),
    (List.filter_sublist.map _).nodup hk.nodup⟩

theorem map (hk : Keyed es) {f : Value × β → Value × α} (hf : ∀ e, (f e).1 = e.1) :
    Keyed (es.map f) where
  worded e he := by
    obtain ⟨d, hd, rfl⟩ := List.mem_map.1 he
    rw [hf]
    exact hk.worded d hd
  nodup := by
    rw [List.map_map]
    simpa only [Function.comp_def, hf] using hk.nodup

theorem find?_eq_some_iff (hk : Keyed es) (hs : key.asText? = some s) :
    find? h key es = some x ↔ Under es (some s) x := by
  induction es with
  | nil => simp [find?]
  | cons e es ih =>
    obtain ⟨t, ht, -⟩ := hk.worded e List.mem_cons_self
    have hn := hk.not_under (x := x)
    rw [under_cons, ht, Option.some.injEq]
    by_cases he : s = t
    · rw [ht, ← he] at hn
      simp [find?, Heap.sameKey_of_asText hs ht, he.symm, hn]
    · simpa [find?, Heap.sameKey_of_asText hs ht, he, Ne.symm he] using ih hk.tail

theorem under_put (hk : Keyed es) (hw : key.Worded) :
    Under (put h key x es) t y ↔
      t = key.asText? ∧ y = x ∨ t ≠ key.asText? ∧ Under es t y := by
  induction es with
  | nil =>
    simp only [put, under_cons, under_nil, or_false, and_false]
    exact and_congr eq_comm eq_comm
  | cons e es ih =>
    have hi := hw.sameKey_iff (h := h) (hk.worded e List.mem_cons_self)
    rw [put]
    split
    · next hs =>
      have he := hi.1 hs
      rw [under_cons, under_cons, ← he]
      have hn := hk.not_under (x := y)
      rw [← he] at hn
      grind
    · next hs =>
      have he : key.asText? ≠ e.1.asText? := fun he => hs (hi.2 he)
      rw [under_cons, under_cons, ih hk.tail]
      grind

theorem put (hk : Keyed es) (hw : key.Worded) : Keyed (put h key x es) := by
  induction es with
  | nil => exact ⟨by simpa [Entries.put] using hw, by simp [Entries.put]⟩
  | cons e es ih =>
    have hi := hw.sameKey_iff (h := h) (hk.worded e List.mem_cons_self)
    rw [Entries.put]
    split
    · exact ⟨by simpa using hk.worded, by simpa using hk.nodup⟩
    · next hs =>
      have hp := ih hk.tail
      refine ⟨?_, List.nodup_cons.2 ⟨?_, hp.nodup⟩⟩
      · intro d hd
        rcases List.mem_cons.1 hd with rfl | hd
        · exact hk.worded d List.mem_cons_self
        · exact hp.worded d hd
      · intro hm
        obtain ⟨y, hy⟩ := mem_keys_iff.1 hm
        rcases (hk.tail.under_put hw).1 hy with ⟨he, -⟩ | ⟨-, hu⟩
        · exact hs (hi.2 he.symm)
        · exact hk.not_under hu

end Keyed

theorem ofList_keys {xs : List (Value × β)} (hw : ∀ e ∈ xs, e.1.Worded) :
    Keyed (ofList h xs) ∧
      ∀ t, (t ∈ (ofList h xs).map fun e => e.1.asText?) ↔ t ∈ xs.map fun e => e.1.asText? := by
  induction xs using List.reverseRecOn with
  | nil => exact ⟨keyed_nil, fun t => Iff.rfl⟩
  | append_singleton xs e ih =>
    obtain ⟨hk, hm⟩ := ih fun d hd => hw d (List.mem_append_left _ hd)
    have he : e.1.Worded := hw e (List.mem_append_right _ (List.mem_singleton.2 rfl))
    have ho : ofList h (xs ++ [e]) = put h e.1 e.2 (ofList h xs) := by
      rw [ofList, List.foldl_append]
      rfl
    rw [ho]
    refine ⟨hk.put he, fun t => ?_⟩
    rw [mem_keys_iff, List.map_append, List.mem_append, ← hm, mem_keys_iff]
    simp only [hk.under_put he, List.map_cons, List.map_nil, List.mem_singleton]
    grind

end Entries

end Promptbook
