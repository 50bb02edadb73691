import Promptbook.Proofs.Settings.Path

namespace Promptbook.Settings

open Promptbook.Heap

variable {K : List (List String)} {h k : Heap} {root w v key : Value} {p q : List String}
  {name : String} {r : Ref} {es fs : Entries Value}

/-- A write under a name of the dictionary at the end of a path. The path with the name is a key,
or it leads to no dictionary before and to a new, empty one after. -/
structure Puts (K : List (List String)) (root : Value) (h k : Heap) (p : List String)
    (name : String) (w : Value) (r : Ref) (es fs : Entries Value) : Prop where
  within : ∃ c ∈ K, p ++ [name] <+: c
  place : h.dig p root = some (.ref r)
  before : h.get? r = some (.dict es)
  after : k.get? r = some (.dict fs)
  lookup : ∀ t, lookupText t fs = if t = name then some w else lookupText t es
  unnamed : Entries.unnamed fs = Entries.unnamed es
  others : ∀ s node, s ≠ r → h.get? s = some node → k.get? s = some node
  closed : k.Closed
  last : p ++ [name] ∈ K ∨
    (∀ s ds, h.dig (p ++ [name]) root = some (.ref s) → h.get? s ≠ some (.dict ds)) ∧
      ∃ f, w = .ref f ∧ h.get? f = none ∧ k.get? f = some (.dict [])

/-- How far a record has come from a heap `h₀`: dictionaries on the way to keys stay or are new,
each is on one path, and everything else is as it was. -/
structure Stage (K : List (List String)) (root : Value) (h₀ h : Heap) : Prop where
  closed : h.Closed
  kept : ∀ p, Free K p → ∀ r es, h₀.dig p root = some (.ref r) → h₀.get? r = some (.dict es) →
    h.dig p root = some (.ref r)
  origin : ∀ p, Free K p → ∀ r es, h.dig p root = some (.ref r) → h.get? r = some (.dict es) →
    (∃ ds, h₀.dig p root = some (.ref r) ∧ h₀.get? r = some (.dict ds) ∧
      Entries.unnamed es = Entries.unnamed ds) ∨
    h₀.get? r = none ∧ Entries.unnamed es = []
  sole : ∀ p q, Free K p → Free K q → ∀ r es, h.get? r = some (.dict es) →
    h.dig p root = some (.ref r) → h.dig q root = some (.ref r) → p = q
  others : ∀ r node, h₀.get? r = some node → h.get? r = some node ∨
    ∃ p ds es, OnWay K p ∧ h₀.dig p root = some (.ref r) ∧ node = .dict ds ∧
      h.get? r = some (.dict es)
  unrelated : ∀ p, Unrelated K p → h.dig p root = h₀.dig p root

namespace Puts

variable (hp : Puts K root h k p name w r es fs)
include hp

theorem onWay : OnWay K p := by
  obtain ⟨c, hc, names, rfl⟩ := hp.within
  rw [List.append_assoc] at hc
  exact onWay_of_mem hc (List.cons_ne_nil name names)

theorem get?_of_ne {s : Ref} {node : Node} (hs : s ≠ r) (hn : h.get? s = some node) :
    k.get? s = h.get? s := by
  rw [hn]
  exact hp.others s node hs hn

theorem ne_of_last {s : Ref} {ds : Entries Value} (hfree : Free K (p ++ [name]))
    (hs : h.dig (p ++ [name]) root = some (.ref s)) : h.get? s ≠ some (.dict ds) := by
  rcases hp.last with hc | ⟨hno, -⟩
  · exact absurd (List.prefix_refl _) (hfree _ hc)
  · exact hno s ds hs

theorem fresh_of_free (hfree : Free K (p ++ [name])) :
    ∃ f, w = .ref f ∧ h.get? f = none ∧ k.get? f = some (.dict []) := by
  rcases hp.last with hc | ⟨-, hf⟩
  · exact absurd (List.prefix_refl _) (hfree _ hc)
  · exact hf

theorem member_before (hfree : Free K (p ++ [name])) (t : String) :
    (h.dig (p ++ [name]) root).bind (h.member t) = none := by
  cases hu : h.dig (p ++ [name]) root with
  | none => rfl
  | some u =>
    refine member_eq_none (Option.eq_none_iff_forall_ne_some.2 fun ds hds => ?_)
    obtain ⟨s, rfl, hs⟩ := exists_of_dict? hds
    exact hp.ne_of_last hfree hu hs

theorem concat_ne {t : String} (hq : h.dig q root ≠ some (.ref r)) :
    q ++ [t] ≠ p ++ [name] := by
  intro he
  obtain ⟨rfl, -⟩ := List.append_inj' he rfl
  exact hq hp.place

theorem dig (hst : h.Closed) (hroot : h.Holds root)
    (hsole : ∀ q, Free K q → h.dig q root = some (.ref r) → q = p) (hq : Tracked K q) :
    k.dig q root = if q = p ++ [name] then some w else h.dig q root := by
  induction q using List.reverseRecOn with
  | nil => simp [Heap.dig]
  | append_singleton q t ih =>
    have hfree : Free K q := hq.free_of_concat
    rw [dig_concat, dig_concat, ih hfree.tracked]
    by_cases hqe : q = p ++ [name]
    · -- Nothing is in a new dictionary either.
      subst hqe
      obtain ⟨f, rfl, -, hf⟩ := hp.fresh_of_free hfree
      rw [if_pos rfl, hp.member_before hfree, if_neg (by simp), Option.bind_some, member_ref hf]
      rfl
    · rw [if_neg hqe]
      cases hu : h.dig q root with
      | none =>
        rw [if_neg (hp.concat_ne (by simp [hu]))]
        rfl
      | some u =>
        rw [Option.bind_some, Option.bind_some]
        by_cases hur : u = .ref r
        · subst hur
          obtain rfl := hsole q hfree hu
          rw [member_ref hp.after, member_ref hp.before, hp.lookup]
          simp
        · rw [if_neg (hp.concat_ne (by simpa [hu] using hur))]
          apply member_congr
          cases u with
          | ref s =>
            obtain ⟨node, hn⟩ := hst.holds_dig hroot hu s rfl
            exact hp.get?_of_ne (fun he => hur (congrArg Value.ref he)) hn
          | _ => rfl

end Puts

namespace Stage

variable {h₀ : Heap}

theorem refl (hc : h.Closed)
    (hsole : ∀ p q r es, h.get? r = some (.dict es) → h.dig p root = some (.ref r) →
      h.dig q root = some (.ref r) → p = q) : Stage K root h h where
  closed := hc
  kept _ _ _ _ hr _ := hr
  origin _ _ _ es hr hes := .inl ⟨es, hr, hes, rfl⟩
  sole p q _ _ r es := hsole p q r es
  others _ _ hn := .inl hn
  unrelated _ _ := rfl

variable (hs : Stage K root h₀ h)
include hs

/-- The order of the keys does not matter. -/
theorem congr {L : List (List String)} (hKL : ∀ c, c ∈ K ↔ c ∈ L) : Stage L root h₀ h := by
  have hfree : Free L = Free K := funext fun p => by simp only [Free, hKL]
  have hway : OnWay L = OnWay K := funext fun p => by simp only [OnWay, hKL]
  have hunrelated : Unrelated L = Unrelated K := funext fun p => by simp only [Unrelated, hKL]
  exact ⟨hs.closed, hfree ▸ hs.kept, hfree ▸ hs.origin, hfree ▸ hs.sole, hway ▸ hs.others,
    hunrelated ▸ hs.unrelated⟩

theorem exists_get? {node : Node} (hn : h₀.get? r = some node) :
    ∃ node', h.get? r = some node' := by
  rcases hs.others r node hn with hk | ⟨-, -, es, -, -, -, hk⟩
  · exact ⟨node, hk⟩
  · exact ⟨_, hk⟩

theorem holds (hv : h₀.Holds v) : h.Holds v := by
  intro r hr
  obtain ⟨node, hn⟩ := hv r hr
  exact hs.exists_get? hn

theorem dict_stays (hes : h₀.get? r = some (.dict es)) : ∃ ds, h.get? r = some (.dict ds) := by
  rcases hs.others r _ hes with hk | ⟨-, -, ds, -, -, -, hk⟩
  · exact ⟨es, hk⟩
  · exact ⟨ds, hk⟩

theorem get?_of_aside {node : Node} (hn : h₀.get? r = some node)
    (hr : ∀ p, OnWay K p → h₀.dig p root ≠ some (.ref r)) : h.get? r = some node := by
  rcases hs.others r node hn with hk | ⟨p, -, -, hp, hd, -, -⟩
  · exact hk
  · exact absurd hd (hr p hp)

variable (hK : Apart K) (hroot : h₀.Holds root) (hp : Puts K root h k p name w r es fs)
include hK hroot hp

theorem dig_put (hq : Tracked K q) :
    k.dig q root = if q = p ++ [name] then some w else h.dig q root :=
  hp.dig hs.closed (hs.holds hroot)
    (fun q hq hr => hs.sole q p hq (hK.free hp.onWay) r es hp.before hr hp.place) hq

theorem dict_before {s : Ref} {ds : Entries Value} (hq : Free K q)
    (hd : k.dig q root = some (.ref s)) (hds : k.get? s = some (.dict ds)) :
    q = p ++ [name] ∧ h.get? s = none ∧ ds = [] ∨
      q ≠ p ++ [name] ∧ h.dig q root = some (.ref s) ∧
        ∃ cs, h.get? s = some (.dict cs) ∧ Entries.unnamed ds = Entries.unnamed cs := by
  rw [hs.dig_put hK hroot hp hq.tracked] at hd
  by_cases hqe : q = p ++ [name]
  · obtain ⟨f, rfl, hf, hfk⟩ := hp.fresh_of_free (hqe ▸ hq)
    rw [if_pos hqe] at hd
    cases hd
    rw [hfk] at hds
    cases hds
    exact .inl ⟨hqe, hf, rfl⟩
  · rw [if_neg hqe] at hd
    refine .inr ⟨hqe, hd, ?_⟩
    by_cases hsr : s = r
    · subst hsr
      rw [hp.after] at hds
      cases hds
      exact ⟨es, hp.before, hp.unnamed⟩
    · obtain ⟨node, hn⟩ := hs.closed.holds_dig (hs.holds hroot) hd s rfl
      rw [hp.get?_of_ne hsr hn] at hds
      exact ⟨ds, hds, rfl⟩

theorem put : Stage K root h₀ k where
  closed := hp.closed
  kept q hq s ds hd hds := by
    have hold := hs.kept q hq s ds hd hds
    rw [hs.dig_put hK hroot hp hq.tracked]
    by_cases hqe : q = p ++ [name]
    · obtain ⟨cs, hcs⟩ := hs.dict_stays hds
      subst hqe
      exact absurd hcs (hp.ne_of_last hq hold)
    · rwa [if_neg hqe]
  origin q hq s ds hd hds := by
    rcases hs.dict_before hK hroot hp hq hd hds with ⟨-, hnone, rfl⟩ | ⟨-, hold, cs, hcs, hu⟩
    · refine .inr ⟨?_, rfl⟩
      cases hn : h₀.get? s with
      | none => rfl
      | some node =>
        obtain ⟨node', hn'⟩ := hs.exists_get? hn
        rw [hn'] at hnone
        cases hnone
    · rw [hu]
      exact hs.origin q hq s cs hold hcs
  sole q q' hq hq' s ds hds hd hd' := by
    rcases hs.dict_before hK hroot hp hq hd hds with ⟨he, hnone, -⟩ | ⟨-, hold, cs, hcs, -⟩ <;>
      rcases hs.dict_before hK hroot hp hq' hd' hds with ⟨he', hnone', -⟩ | ⟨-, hold', cs', hcs', -⟩
    · rw [he, he']
    · rw [hnone] at hcs'
      cases hcs'
    · rw [hnone'] at hcs
      cases hcs
    · exact hs.sole q q' hq hq' s cs hcs hold hold'
  others s node hn := by
    by_cases hsr : s = r
    · subst hsr
      rcases hs.origin p (hK.free hp.onWay) s es hp.place hp.before with
        ⟨ds, hd, hds, -⟩ | ⟨hnone, -⟩
      · rw [hn] at hds
        cases hds
        exact .inr ⟨p, ds, fs, hp.onWay, hd, rfl, hp.after⟩
      · rw [hn] at hnone
        cases hnone
    · rcases hs.others s node hn with hk | ⟨q, ds, cs, hq, hd, he, hk⟩
      · exact .inl (hp.others s node hsr hk)
      · exact .inr ⟨q, ds, cs, hq, hd, he, hp.others s _ hsr hk⟩
  unrelated q hq := by
    have hne : q ≠ p ++ [name] := by
      intro he
      obtain ⟨c, hc, hpc⟩ := hp.within
      exact (hq c hc).2 (he ▸ hpc)
    rw [hs.dig_put hK hroot hp hq.tracked, if_neg hne, hs.unrelated q hq]

end Stage

end Promptbook.Settings
