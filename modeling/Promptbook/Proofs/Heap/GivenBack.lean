import Mathlib.Data.List.Forall2
import Promptbook.Proofs.Heap.Loops
import Promptbook.Proofs.Json.RoundTrip

namespace Promptbook

open Relation

namespace Entries

theorem putText_of_new {name : String} {x : Value} {es : Entries Value}
    (hnew : ∀ e ∈ es, e.1.asText? ≠ some name) :
    putText name x es = es ++ [(.text name, x)] := by
  induction es with
  | nil => rfl
  | cons e es ih =>
    rw [List.forall_mem_cons] at hnew
    rw [putText, if_neg (by simpa using hnew.1), ih hnew.2, List.cons_append]

end Entries

namespace Heap

variable {h k l : Heap} {v w x : Value} {r : Ref} {m n : Nat} {ancestors : List Ref} {name : String}

/-- A list, a tuple, a dictionary under different texts, a scalar, or the undefined marker. -/
def isPlain (h : Heap) (v : Value) : Bool :=
  match h.node? v with
  | some (.list _) | some (.tuple _) => true
  | some (.dict es) =>
    es.all (fun e => e.1.asText?.isSome) && decide (es.map fun e => e.1.asText?).Nodup
  | some _ => false
  | none => v == .undefined || v.isScalar

def Plain (h : Heap) (v : Value) : Prop :=
  ∀ w, ReflTransGen h.Child v w → h.isPlain w = true

/-- A value of one heap comes back as a value of another: as itself, with lists for tuples and null
for the undefined marker. Dictionaries have the same names in the same order. -/
inductive GivenBack (h k : Heap) : Value → Value → Prop
  | null : GivenBack h k .null .null
  | undefined : GivenBack h k .undefined .null
  | bool (b : Bool) : GivenBack h k (.bool b) (.bool b)
  | int (i : Int) : GivenBack h k (.int i) (.int i)
  | text {v : Value} {s : String} (hv : v.asText? = some s) : GivenBack h k v (.text s)
  | items {v w : Value} {xs ys : List Value}
      (hv : h.node? v = some (.list xs) ∨ h.node? v = some (.tuple xs))
      (hw : k.node? w = some (.list ys)) (hall : List.Forall₂ (GivenBack h k) xs ys) :
      GivenBack h k v w
  | dict {v w : Value} {es fs : List (Value × Value)} {names : List String}
      (hv : h.node? v = some (.dict es)) (hw : k.node? w = some (.dict fs))
      (hes : es.map (fun e => e.1.asText?) = names.map some)
      (hfs : fs.map (fun f => f.1) = names.map .text)
      (hall : List.Forall₂ (GivenBack h k) (es.map fun e => e.2) (fs.map fun f => f.2)) :
      GivenBack h k v w

def Restores (h : Heap) (v : Value) (j : Json) : Prop :=
  ∀ k : Heap, k.Extends (k.ofJson j).2 ∧
    ∀ l, (k.ofJson j).2.Extends l → GivenBack h l v (k.ofJson j).1

section Restoring

variable {xs : List Value} {js : List Json} {es : List (Value × Value)}
  {ms : List (String × Json)}

theorem extends_ofJsonItems (hall : List.Forall₂ h.Restores xs js) (k : Heap) :
    k.Extends (k.ofJsonItems js).2 ∧ ∀ l, (k.ofJsonItems js).2.Extends l →
      List.Forall₂ (GivenBack h l) xs (k.ofJsonItems js).1 := by
  induction hall generalizing k with
  | nil => exact ⟨.refl k, fun _ _ => .nil⟩
  | cons hj _ ih =>
    obtain ⟨he, hv⟩ := hj k
    obtain ⟨he', hvs⟩ := ih (k.ofJson _).2
    exact ⟨he.trans he', fun l hl => .cons (hv l (he'.trans hl)) (hvs l hl)⟩

theorem Restores.items (hn : h.node? v = some (.list xs) ∨ h.node? v = some (.tuple xs))
    (hall : List.Forall₂ h.Restores xs js) : h.Restores v (.list js) := by
  intro k
  obtain ⟨he, hvs⟩ := extends_ofJsonItems hall k
  refine ⟨he.trans (.alloc _ _), fun l hl => ?_⟩
  exact .items hn (hl.keeps (get?_alloc _ _)) (hvs l ((Extends.alloc _ _).trans hl))

theorem ofJsonMembers_cons (k : Heap) (done : Entries Value) (name : String) (j : Json)
    (ms : List (String × Json)) : k.ofJsonMembers done ((name, j) :: ms) =
      (k.ofJson j).2.ofJsonMembers (Entries.putText name (k.ofJson j).1 done) ms := by
  rw [ofJsonMembers]

theorem extends_ofJsonMembers (hall : List.Forall₂ h.Restores xs (ms.map fun m => m.2))
    (hnames : (ms.map fun m => m.1).Nodup) {done : Entries Value}
    (hdone : ∀ m ∈ ms, ∀ d ∈ done, d.1.asText? ≠ some m.1) (k : Heap) :
    k.Extends (k.ofJsonMembers done ms).2 ∧ ∃ fs, (k.ofJsonMembers done ms).1 = done ++ fs ∧
      fs.map (fun f => f.1) = (ms.map fun m => m.1).map .text ∧
      ∀ l, (k.ofJsonMembers done ms).2.Extends l →
        List.Forall₂ (GivenBack h l) xs (fs.map fun f => f.2) := by
  induction ms generalizing xs done k with
  | nil =>
    cases hall
    exact ⟨.refl k, [], (List.append_nil _).symm, rfl, fun _ _ => .nil⟩
  | cons m ms ih =>
    obtain ⟨name, j⟩ := m
    obtain ⟨hnew, hnames⟩ := List.nodup_cons.1 hnames
    cases hall with
    | cons hj hrest =>
      obtain ⟨he, hv⟩ := hj k
      have hput : Entries.putText name (k.ofJson j).1 done =
          done ++ [(.text name, (k.ofJson j).1)] :=
        Entries.putText_of_new (hdone (name, j) List.mem_cons_self)
      have hdone' : ∀ m ∈ ms, ∀ d ∈ done ++ [(.text name, (k.ofJson j).1)],
          d.1.asText? ≠ some m.1 := by
        intro m hm d hd
        rcases List.mem_append.1 hd with hd | hd
        · exact hdone m (List.mem_cons_of_mem _ hm) d hd
        · rw [List.mem_singleton.1 hd, Value.asText?_text, ne_eq, Option.some.injEq]
          intro he
          exact hnew (List.mem_map.2 ⟨m, hm, he.symm⟩)
      obtain ⟨he', fs, hfs, hkeys, hvs⟩ := ih hrest hnames hdone' (k.ofJson j).2
      rw [ofJsonMembers_cons, hput]
      exact ⟨he.trans he', (.text name, (k.ofJson j).1) :: fs,
        by rw [hfs, List.append_assoc, List.singleton_append],
        by rw [List.map_cons, List.map_cons, List.map_cons, hkeys],
        fun l hl => .cons (hv l (he'.trans hl)) (hvs l hl)⟩

theorem Restores.dict (hn : h.node? v = some (.dict es))
    (hnodup : (es.map fun e => e.1.asText?).Nodup)
    (hall : List.Forall₂ (fun e m => e.1.asText? = some m.1 ∧ h.Restores e.2 m.2) es ms) :
    h.Restores v (.object ms) := by
  intro k
  have hes : es.map (fun e => e.1.asText?) = (ms.map fun m => m.1).map some := by
    rw [List.map_map, ← List.forall₂_eq_eq_eq, List.forall₂_map_left_iff,
      List.forall₂_map_right_iff]
    exact hall.imp fun _ _ he => he.1
  have hvalues : List.Forall₂ h.Restores (es.map fun e => e.2) (ms.map fun m => m.2) := by
    rw [List.forall₂_map_left_iff, List.forall₂_map_right_iff]
    exact hall.imp fun _ _ he => he.2
  have hnames : (ms.map fun m => m.1).Nodup := by
    rw [hes] at hnodup
    exact hnodup.of_map _
  have hnone : ∀ m ∈ ms, ∀ d ∈ ([] : Entries Value), d.1.asText? ≠ some m.1 :=
    fun _ _ _ hd => (List.not_mem_nil hd).elim
  obtain ⟨he, fs, hfs, hkeys, hvs⟩ := extends_ofJsonMembers hvalues hnames hnone k
  refine ⟨he.trans (.alloc _ _), fun l hl => ?_⟩
  have hget := hl.keeps (get?_alloc (k.ofJsonMembers [] ms).2 (.dict (k.ofJsonMembers [] ms).1))
  rw [hfs, List.nil_append] at hget
  exact .dict hn hget hes hkeys (hvs l ((Extends.alloc _ _).trans hl))

end Restoring

theorem Child.follow (hx : h.Child v x) : ∃ st, h.follow [st] v = some x := by
  obtain ⟨xs, hi, hx⟩ := hx
  cases hn : h.node? v with
  | none =>
    rw [inside?, hn] at hi
    cases hi
  | some node =>
    obtain ⟨r, rfl, hr⟩ := exists_of_node? hn
    have hmem : x ∈ node.elements := by
      rw [inside?, hn] at hi
      cases node with
      | list ys | tuple ys =>
        cases hi
        exact hx
      | dict es =>
        cases hi
        obtain ⟨e, he, rfl⟩ := List.mem_map.1 hx
        exact (Node.mem_elements_entry he).2
      | set ys => cases hi
      | «sealed» ks message =>
        cases ks with
        | nil =>
          cases hi
          cases hx
        | cons key ks => cases hi
    obtain ⟨st, hst⟩ := Node.mem_elements.1 hmem
    exact ⟨st, follow_single.2 ⟨r, node, rfl, hr, hst⟩⟩

theorem exists_follow_of_inside (hw : ReflTransGen h.Child v w) : ∃ ρ, h.follow ρ v = some w := by
  induction hw with
  | refl => exact ⟨[], rfl⟩
  | tail _ hx ih =>
    obtain ⟨ρ, hρ⟩ := ih
    obtain ⟨st, hst⟩ := hx.follow
    exact ⟨ρ ++ [st], by rw [follow_append, hρ]; exact hst⟩

namespace Plain

theorem of_elements (hv : ∀ w ∈ v :: h.elements, h.isPlain w = true) : h.Plain v := by
  intro w hw
  obtain ⟨ρ, hρ⟩ := exists_follow_of_inside hw
  exact hv w (mem_of_follow hρ)

theorem readable (hp : h.Plain v) : h.Readable v := by
  intro w hw cause hi
  have hw' := hp w hw
  rw [inside?] at hi
  rw [isPlain] at hw'
  split at hi
  · cases hi
  · cases hi
  · cases hi
  · next hn =>
    rw [hn] at hw'
    cases hw'
  · cases hi

theorem child (hp : h.Plain v) (hx : h.Child v x) : h.Plain x :=
  fun w hw => hp w (.head hx hw)

theorem leaf (hp : h.Plain v) (hv : h.node? v = none) : v = .undefined ∨ v.isScalar = true := by
  have hv' := hp v .refl
  rw [isPlain, hv] at hv'
  simpa using hv'

theorem container {node : Node} (hp : h.Plain v) (hn : h.node? v = some node) :
    (∃ xs, node = .list xs ∨ node = .tuple xs) ∨
      ∃ es, node = .dict es ∧ (∀ e ∈ es, ∃ s, e.1.asText? = some s) ∧
        (es.map fun e => e.1.asText?).Nodup := by
  have hv := hp v .refl
  rw [isPlain, hn] at hv
  cases node with
  | list xs => exact .inl ⟨xs, .inl rfl⟩
  | tuple xs => exact .inl ⟨xs, .inr rfl⟩
  | dict es =>
    simp only [Bool.and_eq_true, List.all_eq_true, decide_eq_true_eq] at hv
    exact .inr ⟨es, rfl, fun e he => Option.isSome_iff_exists.1 (hv.1 e he), hv.2⟩
  | set xs => cases hv
  | «sealed» ks message => cases hv

end Plain

theorem eachOk_forall₂ {α β : Type} {f : α → Except Fault β} {P : α → β → Prop} {xs : List α}
    (hf : ∀ x ∈ xs, ∃ y, f x = .ok y ∧ P x y) :
    ∃ ys, eachOk f xs = .ok ys ∧ List.Forall₂ P xs ys := by
  induction xs with
  | nil => exact ⟨[], rfl, .nil⟩
  | cons x xs ih =>
    rw [List.forall_mem_cons] at hf
    obtain ⟨y, hy, hxy⟩ := hf.1
    obtain ⟨ys, hys, hall⟩ := ih hf.2
    exact ⟨y :: ys, by rw [eachOk, hy, ok_bind, hys]; rfl, .cons hxy hall⟩

theorem forall_mem_of_forall₂ {α β : Type} {P : α → β → Prop} {Q : β → Prop} {xs : List α}
    {ys : List β} (hall : List.Forall₂ P xs ys) (hQ : ∀ x y, P x y → Q y) : ∀ y ∈ ys, Q y := by
  induction hall with
  | nil => exact List.forall_mem_nil _
  | cons hxy _ ih => exact List.forall_mem_cons.2 ⟨hQ _ _ hxy, ih⟩

theorem leaf_restores (hv : v = .undefined ∨ v.isScalar = true) :
    ∃ j, h.toJsonWithin h.standInNull (m + 1) ancestors v = .ok j ∧ j.Exact (n + 1) ∧
      h.Restores v j := by
  rcases hv with rfl | hv
  · exact ⟨.null, rfl, trivial, fun k => ⟨.refl k, fun _ _ => .undefined⟩⟩
  · cases v with
    | null => exact ⟨.null, rfl, trivial, fun k => ⟨.refl k, fun _ _ => .null⟩⟩
    | bool b => exact ⟨.bool b, rfl, trivial, fun k => ⟨.refl k, fun _ _ => .bool b⟩⟩
    | int i =>
      refine ⟨.int i, ?_, ?_, fun k => ⟨.refl k, fun _ _ => .int i⟩⟩
      · rw [toJsonWithin, leafJson?, integerText_of_isScalar hv]
        rfl
      · rw [Value.isScalar, decide_eq_true_eq] at hv
        exact Json.exact_int.2 hv
    | text s => exact ⟨.text s, rfl, trivial, fun k => ⟨.refl k, fun _ _ => .text rfl⟩⟩
    | kind d => exact ⟨.text d.name, rfl, trivial, fun k => ⟨.refl k, fun _ _ => .text rfl⟩⟩
    | category c => exact ⟨.text c.name, rfl, trivial, fun k => ⟨.refl k, fun _ _ => .text rfl⟩⟩
    | _ => cases hv

/-- A value that does not contain itself has a document that gives it back. It can be read at any
depth at which nothing was found, whatever the depth at which it was written. -/
theorem toJsonWithin_restores (hp : h.Plain v) (hw : h.hasCycleWithin m ancestors v = .ok false)
    (hc : h.hasCycleWithin n ancestors v = .ok false) :
    ∃ j, h.toJsonWithin h.standInNull m ancestors v = .ok j ∧ j.Exact n ∧ h.Restores v j := by
  induction n generalizing m ancestors v with
  | zero => cases hc
  | succ n ih =>
    rcases m with _ | m
    · cases hw
    cases hn : h.node? v with
    | none => exact leaf_restores (hp.leaf hn)
    | some node =>
      obtain ⟨r, rfl, hr⟩ := exists_of_node? hn
      have hinner {xs : List Value} (hi : h.inside? (.ref r) = some (.ok xs)) :
          r ∉ ancestors ∧ ∀ x ∈ xs, ∃ j, h.toJsonWithin h.standInNull m (r :: ancestors) x = .ok j ∧
            j.Exact n ∧ h.Restores x j := by
        obtain ⟨hin, hxs⟩ := hasCycleWithin_eq_false hi hc
        obtain ⟨-, hws⟩ := hasCycleWithin_eq_false hi hw
        exact ⟨hin, fun x hx => ih (hp.child ⟨xs, hi, hx⟩) (hws x hx) (hxs x hx)⟩
      have hitems {xs : List Value} (hi : h.inside? (.ref r) = some (.ok xs)) :
          ∃ js, eachOk (h.toJsonWithin h.standInNull m (r :: ancestors)) xs = .ok js ∧
            (Json.list js).Exact (n + 1) ∧ List.Forall₂ h.Restores xs js := by
        obtain ⟨js, hjs, hall⟩ := eachOk_forall₂ (hinner hi).2
        exact ⟨js, hjs, forall_mem_of_forall₂ hall fun _ _ hj => hj.1, hall.imp fun _ _ hj => hj.2⟩
      simp only [toJsonWithin, leafJson?, Value.asText?_ref, Option.map_none, Value.asRef?,
        node?_ref]
      rcases hp.container hn with ⟨xs, rfl | rfl⟩ | ⟨es, rfl, hkeys, hnodup⟩
      · have hi : h.inside? (.ref r) = some (.ok xs) := by rw [inside?, hn]
        obtain ⟨js, hjs, hexact, hall⟩ := hitems hi
        refine ⟨.list js, ?_, hexact, .items (.inl hn) hall⟩
        simp only [hr, (hinner hi).1, ↓reduceIte, hjs, ok_bind]
        rfl
      · have hi : h.inside? (.ref r) = some (.ok xs) := by rw [inside?, hn]
        obtain ⟨js, hjs, hexact, hall⟩ := hitems hi
        refine ⟨.list js, ?_, hexact, .items (.inr hn) hall⟩
        simp only [hr, (hinner hi).1, ↓reduceIte, hjs, ok_bind]
        rfl
      · obtain ⟨hin, hxs⟩ := hinner (by rw [inside?, hn])
        simp only [hr, hin, ↓reduceIte]
        obtain ⟨ms, hms, hall⟩ : ∃ ms, eachOk (fun e => do
            let name ← h.memberName e.1
            let j ← h.toJsonWithin h.standInNull m (r :: ancestors) e.2
            return (name, j)) es = .ok ms ∧ List.Forall₂ (fun e m =>
              m.2.Exact n ∧ e.1.asText? = some m.1 ∧ h.Restores e.2 m.2) es ms := by
          apply eachOk_forall₂
          intro e he
          obtain ⟨s, hs⟩ := hkeys e he
          obtain ⟨j, hj, hexact, hrestores⟩ := hxs e.2 (List.mem_map_of_mem he)
          exact ⟨(s, j), by rw [memberName_of_text hs, ok_bind, hj]; rfl, hexact, hs, hrestores⟩
        refine ⟨.object ms, by rw [hms]; rfl, forall_mem_of_forall₂ hall fun _ _ hm => hm.1, ?_⟩
        exact .dict hn hnodup (hall.imp fun _ _ hm => hm.2)

/-- Of plain data that does not contain itself and is nested below the depths of the search and of
writing, a container is rendered as a document. Reading it succeeds at any depth that is greater than
its nesting, and puts the container, given back, into any heap. -/
theorem render_gives_back (hp : h.Plain v) (hi : (h.inside? v).isSome) (hl : ¬ h.Loops v)
    (ht : h.TrailsWithin h.depths.render v) :
    ∃ t j, h.render v = .ok t ∧
      (∀ limit, h.TrailsWithin limit v → Json.parse limit t.toList = .ok j) ∧
      ∀ k : Heap, k.Extends (k.ofJson j).2 ∧ GivenBack h (k.ofJson j).2 v (k.ofJson j).1 := by
  have hsearch := hasCycleWithin_of_not_loops hp.readable hl ht
  have hc : h.hasCycle v = .ok false :=
    (h.hasCycle_eq_within v).trans (hasCycleWithin_mono hsearch (Nat.min_le_left _ _))
  have hw : h.hasCycleWithin h.depths.encode [] v = .ok false :=
    hasCycleWithin_mono hsearch (Nat.min_le_right _ _)
  obtain ⟨j, hj, -, hrestores⟩ := toJsonWithin_restores hp hw hw
  have hdocument : h.toJson h.standInNull v = .ok j := hj
  refine ⟨j.print, j, ?_, fun limit hlimit => ?_, fun k => ?_⟩
  · rw [render_of_not_loops hi hc, hdocument]
    rfl
  · obtain ⟨j', hj', hexact, -⟩ := toJsonWithin_restores hp hw
      (hasCycleWithin_of_not_loops hp.readable hl hlimit)
    obtain rfl : j = j' := Except.ok.inj (hj.symm.trans hj')
    exact Json.parse_print hexact
  · obtain ⟨he, hv⟩ := hrestores k
    exact ⟨he, hv _ (.refl _)⟩

/-- A dictionary of a tuple, a text beyond the first plane, the undefined marker, an integer, a
truth value, empty containers, and the tuple again. -/
def parcel : Heap where
  nodes := #[.dict [(.text "a", .ref ⟨1⟩), (.text "é\n", .text "😀\"\\"), (.text "", .undefined),
      (.text "n", .int (-12)), (.text "e", .ref ⟨2⟩), (.text "again", .ref ⟨1⟩)],
    .tuple [.bool true, .int 1, .null, .ref ⟨3⟩], .list [], .dict []]

theorem parcel_gives_back : ∃ t j, parcel.render (.ref ⟨0⟩) = .ok t ∧
    Json.parse 5 t.toList = .ok j ∧
    GivenBack parcel (parcel.ofJson j).2 (.ref ⟨0⟩) (parcel.ofJson j).1 := by
  have hp : parcel.Plain (.ref ⟨0⟩) := .of_elements (by decide +kernel)
  have hbelow {n : Nat} (hn : 4 < n) : parcel.TrailsWithin n (.ref ⟨0⟩) :=
    trailsWithin_of_size_lt hn _
  have hl : ¬ parcel.Loops (.ref ⟨0⟩) := by
    obtain ⟨found, hc, hiff⟩ := hasCycle_returns hp.readable (hbelow (by decide))
    have hfound : parcel.hasCycle (.ref ⟨0⟩) = .ok false := rfl
    cases hc.symm.trans hfound
    exact fun hl => Bool.false_ne_true (hiff.2 hl)
  obtain ⟨t, j, hrender, hparse, hback⟩ := render_gives_back hp rfl hl (hbelow (by decide))
  exact ⟨t, j, hrender, hparse 5 (hbelow (by decide)), (hback parcel).2⟩

section Nest

variable {k : Heap} {n : Nat}

theorem nest_fst (h : Heap) (n : Nat) : (h.nest n).1 = .ref ⟨h.nodes.size + n⟩ := by
  have hsize : ∀ n, (h.nest n).2.nodes.size = h.nodes.size + n + 1 := by
    intro n
    induction n with
    | zero => simp [nest, store, alloc]
    | succ n ih => simp [nest, store, alloc, ih, Nat.add_assoc]
  cases n with
  | zero => rfl
  | succ n => simp [nest, store, alloc, hsize, Nat.add_assoc]

theorem child_nest (he : (h.nest n).2.Extends k) (hx : k.Child (h.nest n).1 x) :
    ∃ m < n, x = (h.nest m).1 ∧ (h.nest m).2.Extends k := by
  obtain ⟨xs, hi, hx⟩ := hx
  cases n with
  | zero =>
    have hn := he.keeps (get?_alloc h (.list []))
    have hi' : k.inside? (h.nest 0).1 = some (.ok []) := by
      rw [nest, store, inside?, node?_ref, hn]
    rw [hi] at hi'
    cases hi'
    cases hx
  | succ n =>
    have hn := he.keeps (get?_alloc (h.nest n).2 (.list [(h.nest n).1]))
    have hi' : k.inside? (h.nest (n + 1)).1 = some (.ok [(h.nest n).1]) := by
      rw [nest, store, inside?, node?_ref, hn]
    rw [hi] at hi'
    cases hi'
    exact ⟨n, Nat.lt_succ_self n, List.mem_singleton.1 hx, (Extends.alloc _ _).trans he⟩

theorem inside_nest (he : (h.nest n).2.Extends k) (hw : ReflTransGen k.Child (h.nest n).1 w) :
    ∃ m ≤ n, w = (h.nest m).1 ∧ (h.nest m).2.Extends k := by
  induction hw with
  | refl => exact ⟨n, Nat.le_refl n, rfl, he⟩
  | tail _ hx ih =>
    obtain ⟨m, hm, rfl, he'⟩ := ih
    obtain ⟨i, hi, rfl, he''⟩ := child_nest he' hx
    exact ⟨i, Nat.le_trans (Nat.le_of_lt hi) hm, rfl, he''⟩

theorem plain_nest (h : Heap) (n : Nat) : (h.nest n).2.Plain (h.nest n).1 := by
  intro w hw
  obtain ⟨m, -, rfl, he⟩ := inside_nest (.refl _) hw
  obtain ⟨r, xs, hr, hget⟩ := nest_eq_list h m
  rw [hr, isPlain, node?_ref, he.keeps hget]

theorem not_loops_nest (h : Heap) (n : Nat) : ¬ (h.nest n).2.Loops (h.nest n).1 := by
  rintro ⟨c, hc, hloop⟩
  obtain ⟨m, -, rfl, he⟩ := inside_nest (.refl _) hc
  obtain ⟨x, hx, hback⟩ := TransGen.head'_iff.1 hloop
  obtain ⟨i, hi, rfl, he'⟩ := child_nest he hx
  obtain ⟨i', hi', heq, -⟩ := inside_nest he' hback
  rw [nest_fst, nest_fst, Value.ref.injEq, Ref.mk.injEq] at heq
  omega

/-- Plain data nested deeper than the limit has no replacement text, though nothing in it contains
itself. -/
theorem nest_not_rendered : ((empty.nest 3000).2.Plain (empty.nest 3000).1 ∧
    ((empty.nest 3000).2.inside? (empty.nest 3000).1).isSome ∧
    ¬ (empty.nest 3000).2.Loops (empty.nest 3000).1) ∧
    ¬ ∃ t, (empty.nest 3000).2.render (empty.nest 3000).1 = .ok t := by
  refine ⟨⟨plain_nest _ _, ?_, not_loops_nest _ _⟩, ?_⟩
  · obtain ⟨r, xs, hr, hget⟩ := nest_eq_list empty 3000
    rw [hr, inside?, node?_ref, hget]
    rfl
  · rintro ⟨t, ht⟩
    have hdeep : (empty.nest 3000).2.depths.search ≤ 3000 := by
      rw [(extends_nest empty 3000).depths]
      decide
    rw [render_nest (.refl _) hdeep] at ht
    cases ht

end Nest

end Heap

end Promptbook
