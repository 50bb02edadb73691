import Promptbook.Heap.Basic
import Promptbook.Proofs.Heap.Records
import Promptbook.Settings.Override

namespace Promptbook

namespace Text

variable {sep : Char}

theorem intercalate_splitChars (s : List Char) : [sep].intercalate (splitChars sep s) = s := by
  induction s with
  | nil => rfl
  | cons c rest ih =>
    cases hs : splitChars sep rest with
    | nil => exact absurd hs (splitChars_ne_nil sep rest)
    | cons piece pieces =>
      rw [hs] at ih
      rw [splitChars, hs]
      by_cases hc : c = sep
      · rw [if_pos hc, List.intercalate_cons_cons, ih, hc]
        rfl
      · rw [if_neg hc, ← ih]
        cases pieces <;> simp [List.intercalate_cons_cons]

theorem split_injective (sep : Char) : Function.Injective (split sep) := by
  intro s t hst
  have hchars : splitChars sep s.toList = splitChars sep t.toList :=
    List.map_injective_iff.2 (fun _ _ => String.ofList_injective) hst
  have hs : [sep].intercalate (splitChars sep s.toList) = s.toList := intercalate_splitChars _
  rw [hchars, intercalate_splitChars] at hs
  exact String.toList_inj.1 hs.symm

theorem split_of_not_mem {s : String} (hs : sep ∉ s.toList) : split sep s = [s] := by
  rw [split, splitChars_of_not_mem hs, List.map_singleton, String.ofList_toList]

end Text

namespace Entries

variable {h : Heap} {key x : Value} {es : Entries Value} {s t : String}

def unnamed (es : Entries Value) : Entries Value :=
  es.filter fun e => e.1.asText?.isNone

theorem sameKey_of_text (hs : key.asText? = some s) (b : Value) :
    h.sameKey key b = (b.asText? == some s) := by
  cases ht : b.asText? with
  | some t => simp [Heap.sameKey_of_asText hs ht, eq_comm]
  | none =>
    obtain ⟨n, hn⟩ := Heap.walkLimit_eq_succ
    rw [Heap.sameKey, Heap.equal, hn, Heap.equalWithin, Heap.node?_of_asText hs]
    cases hb : h.node? b with
    | none => simp [Value.sameLeaf, hs, ht]
    | some node => simp

theorem lookupText_put (hs : key.asText? = some s) :
    lookupText t (put h key x es) = if t = s then some x else lookupText t es := by
  induction es with
  | nil => by_cases ht : t = s <;> simp [put, lookupText, hs, ht, Ne.symm]
  | cons e es ih =>
    rw [put, sameKey_of_text hs]
    by_cases he : e.1.asText? = some s
    · by_cases ht : t = s
      · simp [lookupText, he, ht]
      · simp [lookupText, he, ht, Ne.symm ht]
    · simp only [lookupText] at ih
      by_cases ht : e.1.asText? = some t
      · have hts : t ≠ s := by
          intro hts
          rw [hts] at ht
          exact he ht
        simp [lookupText, ht, hts]
      · simp [lookupText, he, ht, ih]

theorem unnamed_put (hs : key.asText? = some s) : unnamed (put h key x es) = unnamed es := by
  induction es with
  | nil => simp [put, unnamed, hs]
  | cons e es ih =>
    rw [put, sameKey_of_text hs]
    simp only [unnamed] at ih
    by_cases he : e.1.asText? = some s
    · simp [unnamed, he]
    · simp [unnamed, he, List.filter_cons, ih]

theorem key_of_mem_put {e : Value × Value} (he : e ∈ put h key x es) :
    e.1 = key ∨ ∃ d ∈ es, e.1 = d.1 := by
  induction es with
  | nil =>
    rw [put, List.mem_singleton] at he
    exact .inl (by rw [he])
  | cons d es ih =>
    rw [put] at he
    split at he <;> rcases List.mem_cons.1 he with rfl | he
    · exact .inr ⟨d, List.mem_cons_self, rfl⟩
    · exact .inr ⟨e, List.mem_cons_of_mem d he, rfl⟩
    · exact .inr ⟨e, List.mem_cons_self, rfl⟩
    · rcases ih he with hk | ⟨c, hc, hec⟩
      · exact .inl hk
      · exact .inr ⟨c, List.mem_cons_of_mem d hc, hec⟩

theorem mem_elements_put {v : Value} (hv : v ∈ (Node.dict (put h key x es)).elements) :
    v = key ∨ v = x ∨ v ∈ (Node.dict es).elements := by
  induction es with
  | nil => simpa [put, Node.elements] using hv
  | cons e es ih =>
    simp only [Node.elements] at ih hv ⊢
    rw [put] at hv
    split at hv <;> simp only [List.flatMap_cons, List.mem_append, List.mem_cons,
      List.not_mem_nil, or_false] at hv ⊢
    · rcases hv with (hv | hv) | hv <;> simp [hv]
    · rcases hv with (hv | hv) | hv
      · simp [hv]
      · simp [hv]
      · rcases ih hv with hv | hv | hv <;> simp [hv]

end Entries

namespace Heap

variable {h k : Heap} {u v w : Value} {r : Ref} {es : List (Value × Value)} {name : String}
  {p q : List String}

def member (h : Heap) (name : String) (v : Value) : Option Value :=
  (h.dict? v).bind (lookupText name)

def dig (h : Heap) : List String → Value → Option Value
  | [], v => some v
  | name :: names, v => (h.member name v).bind (h.dig names)

theorem exists_of_dict? (hv : h.dict? v = some es) :
    ∃ r, v = .ref r ∧ h.get? r = some (.dict es) :=
  exists_of_node? (dict?_eq_some.1 hv)

theorem dict?_ref (hr : h.get? r = some (.dict es)) : h.dict? (.ref r) = some es :=
  dict?_eq_some.2 hr

theorem member_ref (hr : h.get? r = some (.dict es)) :
    h.member name (.ref r) = lookupText name es := by
  rw [member, dict?_ref hr, Option.bind_some]

theorem member_congr (hn : k.node? v = h.node? v) : k.member name v = h.member name v := by
  rw [member, member, dict?, dict?, hn]

theorem member_eq_none (hv : h.dict? v = none) : h.member name v = none := by
  rw [member, hv, Option.bind_none]

theorem dig_append : h.dig (p ++ q) v = (h.dig p v).bind (h.dig q) := by
  induction p generalizing v with
  | nil => rfl
  | cons name p ih =>
    rw [List.cons_append, dig, dig, Option.bind_assoc]
    exact congrArg _ (funext fun u => ih)

theorem dig_concat : h.dig (p ++ [name]) v = (h.dig p v).bind (h.member name) := by
  have hlast : h.dig [name] = h.member name := funext fun u => Option.bind_fun_some _
  rw [dig_append, hlast]

theorem eq_of_dig (hv : h.dict? v = none) (hw : h.dig p v = some w) : p = [] ∧ w = v := by
  cases p with
  | nil =>
    cases hw
    exact ⟨rfl, rfl⟩
  | cons name p =>
    rw [dig, member_eq_none hv] at hw
    cases hw

theorem dict?_of_dig_concat (hw : h.dig (p ++ [name]) v = some w) :
    ∃ r es, h.dig p v = some (.ref r) ∧ h.get? r = some (.dict es) ∧
      lookupText name es = some w := by
  rw [dig_concat, Option.bind_eq_some_iff] at hw
  obtain ⟨u, hu, hw⟩ := hw
  rw [member, Option.bind_eq_some_iff] at hw
  obtain ⟨es, hes, hw⟩ := hw
  obtain ⟨r, rfl, hr⟩ := exists_of_dict? hes
  exact ⟨r, es, hu, hr, hw⟩

theorem Closed.holds_dig (hc : h.Closed) (hv : h.Holds v) (hw : h.dig p v = some w) :
    h.Holds w := by
  induction p using List.reverseRecOn generalizing w with
  | nil =>
    cases hw
    exact hv
  | append_singleton p name ih =>
    obtain ⟨r, es, hr, hes, hl⟩ := dict?_of_dig_concat hw
    rw [lookupText, Option.map_eq_some_iff] at hl
    obtain ⟨e, he, rfl⟩ := hl
    exact (hc.holds_entry hes (List.mem_of_find?_eq_some he)).2

theorem walk_of_dig (hw : h.dig p v = some w) : h.walk p v = .ok (some w) := by
  induction p generalizing v with
  | nil =>
    cases hw
    rfl
  | cons name p ih =>
    rw [dig, Option.bind_eq_some_iff] at hw
    obtain ⟨u, hu, hw⟩ := hw
    rw [member, Option.bind_eq_some_iff] at hu
    obtain ⟨es, hes, hu⟩ := hu
    have hm := mapping?_of_dict? hes
    have hin : Mapping.has (.entries es) name = true := by rw [Mapping.has, hu]; rfl
    rw [walk, hm]
    simp only [hin, if_true, Mapping.get, hu]
    exact ih hw

end Heap

namespace Settings

variable {K : List (List String)} {c p q : List String} {name : String}

def keyPath (key : Value) : List String :=
  Text.split '.' (key.asText?.getD "")

/-- No key leads through another one. -/
def Apart (K : List (List String)) : Prop :=
  ∀ c ∈ K, ∀ d ∈ K, c <+: d → c = d

def OnWay (K : List (List String)) (p : List String) : Prop :=
  ∃ c ∈ K, p <+: c ∧ p ≠ c

def Free (K : List (List String)) (p : List String) : Prop :=
  ∀ c ∈ K, ¬ c <+: p

def Tracked (K : List (List String)) (p : List String) : Prop :=
  ∀ c ∈ K, c <+: p → c = p

/-- A path neither leads through a key nor is a part of the way to one. -/
def Unrelated (K : List (List String)) (p : List String) : Prop :=
  ∀ c ∈ K, ¬ c <+: p ∧ ¬ p <+: c

instance : Decidable (Apart K) :=
  inferInstanceAs (Decidable (∀ c ∈ K, ∀ d ∈ K, c <+: d → c = d))

theorem keyPath_ne_nil (key : Value) : keyPath key ≠ [] := by
  obtain ⟨t, ts, hs⟩ := Text.exists_split_eq '.' (key.asText?.getD "")
  rw [keyPath, hs]
  exact List.cons_ne_nil t ts

theorem asText?_eq_of_keyPath {a b : Value} (ha : ∃ s, a.asText? = some s)
    (hb : ∃ t, b.asText? = some t) (hpath : keyPath a = keyPath b) : a.asText? = b.asText? := by
  obtain ⟨s, hs⟩ := ha
  obtain ⟨t, ht⟩ := hb
  rw [keyPath, keyPath, hs, ht] at hpath
  rw [hs, ht]
  exact congrArg some (Text.split_injective '.' hpath)

theorem keyPath_ne_of_nodup {es ds : Entries Value} {e : Value × Value}
    (htexts : ∀ e ∈ es, ∃ s, e.1.asText? = some s) (hnodup : (es.map fun e => e.1.asText?).Nodup)
    (hds : ds ++ [e] <+: es) : ∀ d ∈ ds, keyPath d.1 ≠ keyPath e.1 := by
  intro d hd hpath
  have htext : d.1.asText? = e.1.asText? :=
    asText?_eq_of_keyPath (htexts d (hds.subset (List.mem_append_left _ hd)))
      (htexts e (hds.subset List.mem_concat_self)) hpath
  have hnodup' : ((ds ++ [e]).map fun e => e.1.asText?).Nodup :=
    hnodup.sublist (hds.sublist.map _)
  rw [List.map_append, List.nodup_append] at hnodup'
  exact hnodup'.2.2 _ (List.mem_map_of_mem hd) _ (List.mem_map_of_mem List.mem_cons_self) htext

theorem Free.tracked (hp : Free K p) : Tracked K p :=
  fun c hc hcp => absurd hcp (hp c hc)

theorem Unrelated.tracked (hp : Unrelated K p) : Tracked K p :=
  fun c hc hcp => absurd hcp (hp c hc).1

theorem Apart.tracked (hK : Apart K) (hc : c ∈ K) : Tracked K c :=
  fun d hd hdc => hK d hd c hc hdc

theorem Tracked.free_of_concat (hp : Tracked K (p ++ [name])) : Free K p := by
  intro c hc hcp
  have hlen := hcp.length_le
  have heq := hp c hc (hcp.trans (List.prefix_append p [name]))
  rw [heq, List.length_append, List.length_singleton] at hlen
  omega

theorem Apart.free (hK : Apart K) (hp : OnWay K p) : Free K p := by
  obtain ⟨d, hd, hpd, hne⟩ := hp
  intro c hc hcp
  obtain rfl := hK c hc d hd (hcp.trans hpd)
  exact hne (hpd.eq_of_length (Nat.le_antisymm hpd.length_le hcp.length_le))

theorem onWay_of_mem {names : List String} (hc : p ++ names ∈ K) (hne : names ≠ []) :
    OnWay K p :=
  ⟨p ++ names, hc, List.prefix_append p names, fun he => hne (List.append_right_eq_self.1 he.symm)⟩

theorem OnWay.exists_rest (hp : OnWay K p) : ∃ name names, p ++ name :: names ∈ K := by
  obtain ⟨c, hc, ⟨names, rfl⟩, hne⟩ := hp
  cases names with
  | nil => exact absurd (List.append_nil p).symm hne
  | cons name names => exact ⟨name, names, hc⟩

theorem OnWay.concat_cases (hp : OnWay K p) (hK : Apart K) (name : String) :
    p ++ [name] ∈ K ∨ OnWay K (p ++ [name]) ∨ Unrelated K (p ++ [name]) := by
  by_cases hin : p ++ [name] ∈ K
  · exact .inl hin
  · by_cases hon : OnWay K (p ++ [name])
    · exact .inr (.inl hon)
    · refine .inr (.inr fun c hc => ⟨fun hcp => ?_, fun hpc => ?_⟩)
      · rcases List.prefix_concat_iff.1 hcp with rfl | hcp
        · exact hin hc
        · exact hK.free hp c hc hcp
      · exact hon ⟨c, hc, hpc, fun he => hin (he ▸ hc)⟩

end Settings

end Promptbook
