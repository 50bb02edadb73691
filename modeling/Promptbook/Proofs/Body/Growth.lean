import Mathlib.Order.Monotone.Basic
import Promptbook.Proofs.Body.Entries

namespace Promptbook

def slotsOf (path : String) (s : List Char) : Nat :=
  (Piece.ofChars s).countP fun p => p.path? == some path

def twice (path : List Char) : String :=
  String.ofList ('}' :: ((Piece.slot path).source ++ (Piece.slot path).source))

namespace Heap

variable {h k : Heap} {values v w : Value} {path : List Char} {key : String} {s : String}
  {ps : List Piece} {cs : List Char} {names : List String} {r : Ref}

structure Doubles (h : Heap) (values : Value) (path : List Char) (key : String) : Prop where
  here : (Piece.slot path).path? = some key
  nonempty : path ≠ []
  closed : '}' ∉ path
  lookup : h.lookup key values = .ok (some (.text (twice path)))

theorem Doubles.le_slotsOf_fillPieces (hd : h.Doubles values path key)
    (hf : h.fillPieces values ps = .ok cs) (front : List Char) :
    2 * ps.countP (fun p => p.path? == some key) ≤ slotsOf key (front ++ cs) := by
  induction ps generalizing front cs with
  | nil => simp
  | cons p ps ih =>
    simp only [fillPieces, bind_eq_ok, pure_eq_ok] at hf
    obtain ⟨t, ht, rest, hrest, rfl⟩ := hf
    by_cases hp : p.path? = some key
    · simp only [fillPiece, hp, hd.lookup, ok_bind, bind_eq_ok, pure_eq_ok] at ht
      obtain ⟨_, ⟨⟩, rfl⟩ := ht
      have hcut : Piece.ofChars (front ++ ((twice path).toList ++ rest)) =
          Piece.ofChars (front ++ ['}']) ++ .slot path :: .slot path :: Piece.ofChars rest := by
        rw [twice, String.toList_ofList, List.cons_append, Piece.ofChars_append_brace,
          List.append_assoc, Piece.ofChars_slot hd.nonempty hd.closed,
          Piece.ofChars_slot hd.nonempty hd.closed]
      have hback := ih hrest []
      simp only [List.nil_append, slotsOf] at hback
      rw [slotsOf, hcut, List.countP_append, List.countP_cons, List.countP_cons, List.countP_cons,
        hp, hd.here]
      simp only [beq_self_eq_true, if_true]
      omega
    · have hcount : (p :: ps).countP (fun p => p.path? == some key) =
          ps.countP fun p => p.path? == some key := by
        rw [List.countP_cons_of_neg (by simpa using hp)]
      rw [hcount, ← List.append_assoc]
      exact ih hrest (front ++ t)

theorem Doubles.le_slotsOf_filled (hd : h.Doubles values path key) (hf : h.Fills values s) :
    2 * slotsOf key s.toList ≤ slotsOf key (h.filled values s).toList := by
  obtain ⟨t, ht⟩ := hf
  rw [filled_eq ht]
  rw [substitute, map_eq_ok] at ht
  obtain ⟨cs, hcs, rfl⟩ := ht
  rw [String.toList_ofList]
  exact hd.le_slotsOf_fillPieces hcs []

/-- No number of times to fill a text with the placeholder comes to the same as another. -/
theorem Doubles.iterate_injective (hd : h.Doubles values path key) (hf : ∀ s, h.Fills values s)
    (hs : .slot path ∈ Piece.ofChars s.toList) :
    Function.Injective fun n => (h.filled values)^[n] s := by
  have hpos : ∀ n, 0 < slotsOf key ((h.filled values)^[n] s).toList := by
    intro n
    induction n with
    | zero => exact List.countP_pos_iff.2 ⟨_, hs, by simp [hd.here]⟩
    | succ n ih =>
      rw [Function.iterate_succ_apply']
      exact Nat.lt_of_lt_of_le (by omega) (hd.le_slotsOf_filled (hf _))
  have hmono : StrictMono fun n => slotsOf key ((h.filled values)^[n] s).toList := by
    apply strictMono_nat_of_lt_succ
    intro n
    rw [Function.iterate_succ_apply']
    exact Nat.lt_of_lt_of_le (by have := hpos n; omega) (hd.le_slotsOf_filled (hf _))
  exact fun a b hab => hmono.injective (congrArg (fun s : String => slotsOf key s.toList) hab)

def Tame (h : Heap) (v : Value) : Prop :=
  ∀ names, ∃ o, h.walk names v = .ok o ∧ ∀ u, o = some u → ∃ t, h.render u = .ok t

theorem Tame.mono (ht : h.Tame v) (he : h.Extends k) (hc : h.Closed) (hv : h.Holds v) :
    k.Tame v := by
  intro names
  obtain ⟨o, ho, hr⟩ := ht names
  refine ⟨o, (he.walk_eq hc names hv).trans ho, fun u hu => ?_⟩
  obtain ⟨t, ht⟩ := hr u hu
  exact ⟨t, (he.render_eq hc (hc.holds_walk hv (hu ▸ ho))).trans ht⟩

theorem tame_text (h : Heap) (s : String) : h.Tame (.text s) := by
  intro names
  cases names with
  | nil => exact ⟨_, rfl, fun u hu => Option.some.inj hu ▸ render_of_text rfl⟩
  | cons name names => exact ⟨none, rfl, by rintro _ ⟨⟩⟩

theorem Tame.fills (ht : h.Tame values) (s : String) : h.Fills values s :=
  substitute_total fun path _ => ht (Text.split '.' path)

theorem render_loop {es : List (Value × Value)} {key : Value}
    (hr : h.get? r = some (.dict ((key, .ref r) :: es))) :
    h.render (.ref r) = .ok cycleMarker := by
  have hin : h.inside? (.ref r) = some (.ok (.ref r :: es.map (·.2))) := by
    simp only [inside?, node?_ref, hr, List.map_cons]
  obtain ⟨n, hn⟩ := Nat.exists_eq_add_of_le' h.depths.two_le_search
  have hcycle : h.hasCycle (.ref r) = .ok true := by
    simp only [hasCycle_eq_within, hn, hasCycleWithin, Value.asRef?, hin, List.not_mem_nil, if_false,
      ok_bind, anyOk, List.mem_singleton, if_true]
    rfl
  simp only [render, Value.asText?_ref, hin, hcycle, ok_bind, if_true]
  rfl

/-- A dictionary in which a name leads to a value and a longer one back to the dictionary. -/
def hoop (h : Heap) (name : String) (v : Value) : Value × Heap :=
  h.store (.dict [(.text (name ++ "_"), .ref ⟨h.nodes.size⟩), (.text name, v)])

def hoops (h : Heap) (v : Value) : List String → Value × Heap
  | [] => (v, h)
  | name :: names => hoop (hoops h v names).2 name (hoops h v names).1

structure Leads (h k : Heap) (names : List String) (w v : Value) : Prop where
  keeps : h.Extends k
  closed : k.Closed
  holds : k.Holds w
  tame : k.Tame w
  walk : k.walk names w = .ok (some v)

theorem ne_append_underscore (name : String) : name ++ "_" ≠ name := by
  intro he
  have := congrArg String.length he
  simp at this

theorem Leads.hoop {name : String} (hl : Leads h k names w v) :
    Leads h (k.hoop name w).2 (name :: names) (k.hoop name w).1 v := by
  have he : k.Extends (k.hoop name w).2 := .alloc k _
  have hself : (k.hoop name w).2.get? ⟨k.nodes.size⟩ =
      some (.dict [(.text (name ++ "_"), .ref ⟨k.nodes.size⟩), (.text name, w)]) := get?_alloc k _
  have hm : (k.hoop name w).2.mapping? (k.hoop name w).1 =
      some (.entries [(.text (name ++ "_"), .ref ⟨k.nodes.size⟩), (.text name, w)]) := by
    simp only [Heap.hoop, store, alloc] at hself ⊢
    simp only [mapping?, node?_ref, hself]
  have hwalk (first : String) (rest : List String) :
      (k.hoop name w).2.walk (first :: rest) (k.hoop name w).1 =
        if name ++ "_" = first then (k.hoop name w).2.walk rest (k.hoop name w).1
        else if name = first then (k.hoop name w).2.walk rest w else .ok none := by
    rw [walk_cons hm]
    by_cases h₁ : name ++ "_" = first
    · simp [lookupText, h₁]
      rfl
    · by_cases h₂ : name = first <;> simp [lookupText, h₁, h₂]
  have htame := hl.tame.mono he hl.closed hl.holds
  refine ⟨hl.keeps.trans he, ?_, ?_, ?_, ?_⟩
  · apply hl.closed.alloc_of_holds
    intro u hu
    simp only [Node.elements, List.flatMap_cons, List.flatMap_nil, List.append_nil,
      List.cons_append, List.nil_append, List.mem_cons, List.not_mem_nil, or_false] at hu
    obtain rfl | rfl | rfl | rfl := hu
    · exact holds_text _ _
    · intro _ heq
      cases heq
      exact ⟨_, hself⟩
    · exact holds_text _ _
    · exact he.holds hl.holds
  · intro _ heq
    cases heq
    exact ⟨_, hself⟩
  · intro rest
    induction rest with
    | nil => exact ⟨_, rfl, fun u hu => Option.some.inj hu ▸ ⟨_, render_loop hself⟩⟩
    | cons first rest ih =>
      rw [hwalk]
      split
      · exact ih
      · split
        · exact htame rest
        · exact ⟨none, rfl, by rintro _ ⟨⟩⟩
  · rw [hwalk, if_neg (ne_append_underscore name), if_pos rfl, he.walk_eq hl.closed _ hl.holds,
      hl.walk]

theorem leads_hoops (hc : h.Closed) (s : String) (names : List String) :
    Leads h (h.hoops (.text s) names).2 names (h.hoops (.text s) names).1 (.text s) := by
  induction names with
  | nil => exact ⟨.refl h, hc, holds_text h s, tame_text h s, rfl⟩
  | cons name names ih => exact ih.hoop

/-- For each placeholder there are variables that double it. -/
theorem exists_doubles (hc : h.Closed) (hs : .slot path ∈ Piece.ofChars s.toList) :
    ∃ k values key, h.Extends k ∧ k.Closed ∧ k.Holds values ∧ k.Doubles values path key ∧
      ∀ t, k.Fills values t := by
  obtain ⟨hne, hnot⟩ := Piece.mem_ofChars hs
  have hl := leads_hoops hc (twice path)
    (Text.split '.' (String.ofList (Text.trimBlanks path)))
  exact ⟨_, _, _, hl.keeps, hl.closed, hl.holds, ⟨rfl, hne, hnot, hl.walk⟩, hl.tame.fills⟩

end Heap

end Promptbook
