import Promptbook.Proofs.Heap.Tree
import Promptbook.Proofs.Review.References

namespace Promptbook

namespace Verdict

variable {v w : Verdict} {vs : List Verdict} {b : Bool} {s message : String}

theorem mem_warnings_warnIf : s ∈ (warnIf b message).warnings ↔ b = true ∧ s = message := by
  cases b with
  | false => simp [warnIf, clean]
  | true => simp [warnIf, warning]

theorem mem_warnings_join : s ∈ (join vs).warnings ↔ ∃ v ∈ vs, s ∈ v.warnings := by
  induction vs with
  | nil => simp [join, clean]
  | cons v vs ih =>
    rw [List.exists_mem_cons_iff, ← ih]
    exact List.mem_append

theorem not_mem_warnings (hw : ∀ c, w.Opens c) : s ∉ w.warnings := by
  intro hs
  cases (hw 'a' s hs).symm.trans (hw 'b' s hs)

end Verdict

namespace Review

open Verdict

variable {settings : ReviewSettings} {h k : Heap} {m : Mapping} {v c : Value} {w : Verdict}
  {names : List String} {limit n current d : Nat} {noted : List Ref}

/-- The warning of a context that is nested deeper than a limit. -/
def deepNote (limit : Nat) : String :=
  s!"Template context has very deep nesting (>{limit} levels)"

def HasContext (h : Heap) (v c : Value) : Prop :=
  ∃ m, h.mapping? v = some m ∧ m.field "context" = .ok c ∧ h.isMapping c = true

section Note

theorem toList_append_of_some {a b : String} {i : Nat} {x : Char} (ha : a.toList[i]? = some x) :
    (a ++ b).toList[i]? = some x := by
  rw [String.toList_append, List.getElem?_append_left (List.getElem?_eq_some_iff.1 ha).1, ha]

theorem head?_deepNote (limit : Nat) : (deepNote limit).toList.head? = some 'T' :=
  head?_append (head?_append rfl)

theorem deepNote_ne_empty (limit : Nat) : deepNote limit ≠ "Template context is empty" := by
  intro he
  have hdeep : (deepNote limit).toList[17]? = some 'h' :=
    toList_append_of_some (toList_append_of_some rfl)
  rw [he] at hdeep
  exact absurd hdeep (by decide)

theorem not_mem_variablesVerdict (limit bound : Nat) (v : Value) :
    deepNote limit ∉ (variablesVerdict h bound v).warnings := by
  have hdeep : (deepNote limit).toList[9]? = some 'c' :=
    toList_append_of_some (toList_append_of_some rfl)
  unfold variablesVerdict
  split
  · exact List.not_mem_nil
  · exact List.not_mem_nil
  · simp only [mem_warnings_join, List.exists_mem_cons_iff, mem_warnings_warnIf]
    rintro (⟨-, he⟩ | ⟨u, hu, hmem⟩ | ⟨-, he⟩ | ⟨_, hnil, -⟩)
    · have hmany : ("Template has many variables (".toList)[9]? = some 'h' := rfl
      rw [he] at hdeep
      cases hdeep.symm.trans (toList_append_of_some (toList_append_of_some hmany))
    · exact not_mem_warnings (fun c => opens_variableVerdicts _ u hu) hmem
    · rw [he] at hdeep
      exact absurd hdeep (by decide)
    · cases hnil

theorem not_mem_referenceVerdict (hr : referenceVerdict h m = .ok w) :
    deepNote limit ∉ w.warnings := by
  simp only [referenceVerdict, bind_eq_ok, pure_eq_ok] at hr
  obtain ⟨declared, -, used, -, rfl⟩ := hr
  intro hmem
  rcases List.mem_append.1 hmem with hmem | hmem
  · obtain ⟨name, -, he⟩ := List.mem_map.1 hmem
    have hhead := head?_usedNote name
    rw [usedNote, he, head?_deepNote] at hhead
    cases hhead
  · obtain ⟨name, -, he⟩ := List.mem_map.1 hmem
    have hhead := head?_unusedNote name
    rw [unusedNote, he, head?_deepNote] at hhead
    cases hhead

theorem contextVerdict_of_mapping (hc : h.isMapping c = true) : contextVerdict h limit c = do
    let depth ← h.depth c
    return .warnIf (!h.truthy c) "Template context is empty" ++
      .warnIf (limit < depth) (deepNote limit) := by
  rw [contextVerdict, if_neg (ne_null_of_isMapping hc), hc]
  rfl

theorem deepNote_of_contextVerdict (hr : contextVerdict h limit c = .ok w)
    (hc : h.isMapping c = true) :
    ∃ d, h.depth c = .ok d ∧ (deepNote limit ∈ w.warnings ↔ limit < d) := by
  rw [contextVerdict_of_mapping hc, bind_eq_ok] at hr
  obtain ⟨d, hd, hr⟩ := hr
  obtain rfl := pure_eq_ok.1 hr
  refine ⟨d, hd, ?_⟩
  simp only [warnings_append, List.mem_append, mem_warnings_warnIf, deepNote_ne_empty, and_false,
    false_or, and_true, decide_eq_true_iff]

theorem isMapping_of_deepNote (hr : contextVerdict h limit c = .ok w)
    (hw : deepNote limit ∈ w.warnings) : h.isMapping c = true := by
  rw [contextVerdict] at hr
  split at hr
  · cases hr
    cases hw
  · split at hr
    · cases hr
      cases hw
    · next hc => simpa using hc

theorem exists_contextVerdict (hr : bodyFieldsVerdict settings h m = .ok w) :
    ∃ c cv, m.field "context" = .ok c ∧ contextVerdict h settings.depthLimit c = .ok cv ∧
      (deepNote limit ∈ w.warnings ↔ deepNote limit ∈ cv.warnings) := by
  simp only [bodyFieldsVerdict, bind_eq_ok, pure_eq_ok] at hr
  obtain ⟨task, -, instructions, -, context, hcontext, cv, hcv, format, -, fv, hfv, declared, -,
    language, -, given, -, rfl⟩ := hr
  refine ⟨context, cv, hcontext, hcv, ?_⟩
  simp only [mem_warnings_join, List.exists_mem_cons_iff,
    not_mem_warnings fun _ => opens_longText, not_mem_warnings fun _ => opens_formatVerdict hfv,
    not_mem_variablesVerdict, not_mem_warnings fun _ => opens_errorIf, List.not_mem_nil,
    false_and, exists_false, or_false, false_or]

theorem body_cases (hr : body settings h v = .ok w) :
    (∃ m fields, h.mapping? v = some m ∧ bodyFieldsVerdict settings h m = .ok fields ∧
      (deepNote limit ∈ w.warnings ↔ deepNote limit ∈ fields.warnings)) ∨
    deepNote limit ∉ w.warnings ∧ ∀ c, ¬ HasContext h v c := by
  rw [body] at hr
  split at hr
  · next m hm ht =>
    left
    simp only [bind_eq_ok, pure_eq_ok] at hr
    obtain ⟨required, hrequired, fields, hfields, references, hreferences, rfl⟩ := hr
    refine ⟨m, fields, hm, hfields, ?_⟩
    simp only [mem_warnings_join, List.exists_mem_cons_iff,
      not_mem_warnings fun _ => opens_require hrequired, not_mem_referenceVerdict hreferences,
      List.not_mem_nil, false_and, exists_false, or_false, false_or]
  · next hno =>
    right
    simp only [bind_eq_ok, pure_eq_ok] at hr
    obtain ⟨_, -, rfl⟩ := hr
    refine ⟨List.not_mem_nil, ?_⟩
    rintro c ⟨m, hm, hfield, hc⟩
    exact hno m hm (Heap.truthy_of_field hm hfield (ne_null_of_isMapping hc))

end Note

theorem deepNote_of_context (hr : body settings h v = .ok w) (hc : HasContext h v c) :
    ∃ d, h.depth c = .ok d ∧
      (deepNote settings.depthLimit ∈ w.warnings ↔ settings.depthLimit < d) := by
  obtain ⟨m, fields, hm, hfields, hiff⟩ | ⟨-, hno⟩ := body_cases hr
  · obtain ⟨m', hm', hfield, hmap⟩ := hc
    obtain rfl := Option.some.inj (hm.symm.trans hm')
    obtain ⟨c', cv, hfield', hcv, hiff'⟩ := exists_contextVerdict hfields
    obtain rfl := Except.ok.inj (hfield.symm.trans hfield')
    obtain ⟨d, hd, hlt⟩ := deepNote_of_contextVerdict hcv hmap
    exact ⟨d, hd, hiff.trans (hiff'.trans hlt)⟩
  · exact (hno c hc).elim

theorem exists_context_of_deepNote (hr : body settings h v = .ok w)
    (hw : deepNote settings.depthLimit ∈ w.warnings) : ∃ c, HasContext h v c := by
  obtain ⟨m, fields, hm, hfields, hiff⟩ | ⟨hno, -⟩ := body_cases hr
  · obtain ⟨c, cv, hfield, hcv, hiff'⟩ := exists_contextVerdict hfields
    exact ⟨c, m, hm, hfield, isMapping_of_deepNote hcv (hiff'.1 (hiff.1 hw))⟩
  · exact (hno hw).elim

theorem deepNote_mem_iff (hr : body settings h v = .ok w) :
    deepNote settings.depthLimit ∈ w.warnings ↔
      ∃ c path, HasContext h v c ∧ Trail h.Entry c path ∧ settings.depthLimit < path.length := by
  constructor
  · intro hw
    obtain ⟨c, hc⟩ := exists_context_of_deepNote hr hw
    obtain ⟨d, hd, hiff⟩ := deepNote_of_context hr hc
    obtain ⟨path, ht, hlt⟩ := (Heap.lt_depth_iff hd).1 (hiff.1 hw)
    exact ⟨c, path, hc, ht, hlt⟩
  · rintro ⟨c, path, hc, ht, hlt⟩
    obtain ⟨d, hd, hiff⟩ := deepNote_of_context hr hc
    exact hiff.2 ((Heap.lt_depth_iff hd).2 ⟨path, ht, hlt⟩)

section Total

theorem rootsWithin_total (hd : h.depthWithin n current noted v = .ok d) :
    ∃ names, rootsWithin h n noted v = .ok names := by
  induction n generalizing current noted v d with
  | zero => cases hd
  | succ n ih =>
    cases hv : v.asText? with
    | some s => exact ⟨_, rootsWithin_text hv⟩
    | none =>
      cases hl : h.listed? v with
      | none =>
        refine ⟨[], ?_⟩
        simp only [rootsWithin, hv, hl]
        cases v.asRef? <;> rfl
      | some children =>
        obtain ⟨r, rfl⟩ := Heap.exists_ref_of_listed? hl
        simp only [rootsWithin, hv, Value.asRef?, hl]
        by_cases hr : r ∈ noted
        · exact ⟨[], if_pos hr⟩
        · rw [Heap.depthWithin_of_listed hl hr, bind_eq_ok] at hd
          obtain ⟨xs, rfl, hd⟩ := hd
          rw [if_neg hr, ok_bind]
          apply collect_total
          intro x hx
          obtain ⟨e, -, he⟩ := (Heap.maxOk_eq_ok hd).2.1 x hx
          exact ih he

variable {es : List (Value × Value)}

theorem require_total (es : List (Value × Value)) (names : List String) :
    ∃ w, require (.entries es) names = .ok w := by
  induction names with
  | nil => exact ⟨.clean, rfl⟩
  | cons name names ih =>
    obtain ⟨rest, hrest⟩ := ih
    exact ⟨_, bind_eq_ok.2 ⟨_, rfl, bind_eq_ok.2 ⟨rest, hrest, rfl⟩⟩⟩

theorem flagVerdict_total (es : List (Value × Value)) (names : List String) :
    ∃ w, flagVerdict (.entries es) names = .ok w := by
  induction names with
  | nil => exact ⟨.clean, rfl⟩
  | cons name names ih =>
    obtain ⟨rest, hrest⟩ := ih
    exact ⟨_, bind_eq_ok.2 ⟨_, rfl, bind_eq_ok.2 ⟨rest, hrest, rfl⟩⟩⟩

theorem formatVerdict_total (hv : v = .null ∨ h.Unbarred v ∧ h.Testable v) :
    ∃ w, formatVerdict h v = .ok w := by
  unfold formatVerdict
  split
  · exact ⟨_, rfl⟩
  · exact ⟨_, rfl⟩
  · next m hnull hm =>
    obtain ⟨hu, ht⟩ := hv.resolve_left hnull
    obtain ⟨es, rfl⟩ := hu.entries hm
    obtain ⟨flags, hflags⟩ := flagVerdict_total es formatFlags
    exact ⟨_, bind_eq_ok.2 ⟨_, rfl, bind_eq_ok.2 ⟨_, Heap.truth_eq (ht.field hm rfl),
      bind_eq_ok.2 ⟨flags, hflags, rfl⟩⟩⟩⟩

theorem contextVerdict_total (limit : Nat)
    (hc : c = .null ∨ h.Unbarred c ∧ h.EntriesWithin Heap.walkLimit c) :
    ∃ w, contextVerdict h limit c = .ok w := by
  rw [contextVerdict]
  split
  · exact ⟨_, rfl⟩
  · next hnull =>
    split
    · exact ⟨_, rfl⟩
    · obtain ⟨hu, hw⟩ := hc.resolve_left hnull
      obtain ⟨d, hd⟩ := Heap.depth_returns hu hw
      exact ⟨_, bind_eq_ok.2 ⟨d, hd, rfl⟩⟩

theorem referenceVerdict_total (hroots : ∀ e ∈ es, ∃ names,
    rootsWithin h (Heap.walkLimit - 1) [] e.2 = .ok names) :
    ∃ w, referenceVerdict h (.entries es) = .ok w := by
  obtain ⟨used, hused⟩ : ∃ used, usedRoots h (.entries es) = .ok used := by
    simp only [usedRoots, Mapping.items, ok_bind]
    apply collect_total
    intro x hx
    obtain ⟨e, he, rfl⟩ := List.mem_map.1 hx
    exact hroots e (List.mem_of_mem_filter he)
  exact ⟨_, bind_eq_ok.2 ⟨_, rfl, bind_eq_ok.2 ⟨used, hused, rfl⟩⟩⟩

/-- A review of lists and dictionaries nested below the limit comes to an end, if nothing in them
refuses its truth test. The references are collected from a copy of the body, so each entry stands
one level deeper there. -/
theorem body_total (settings : ReviewSettings) (hu : h.Unbarred v) (ht : h.Testable v)
    (hn : ∀ x, h.Entry v x → h.EntriesWithin (Heap.walkLimit - 1) x) :
    ∃ w, body settings h v = .ok w := by
  unfold body
  split
  · next m hm _ =>
    obtain ⟨es, rfl⟩ := hu.entries hm
    have hfield (name : String) : ((lookupText name es).getD .null) = .null ∨
        h.Entry v ((lookupText name es).getD .null) := Heap.entry_of_field hm rfl
    have hwithin : ∀ x, h.Entry v x → h.EntriesWithin Heap.walkLimit x := fun x hx =>
      (hn x hx).mono (Nat.sub_le _ _)
    obtain ⟨required, hrequired⟩ := require_total es bodyFields
    obtain ⟨context, hcontext⟩ := contextVerdict_total settings.depthLimit
      ((hfield "context").imp_right fun hx => ⟨hu.entry hx, hwithin _ hx⟩)
    obtain ⟨format, hformat⟩ := formatVerdict_total
      ((hfield "output_format").imp_right fun hx => ⟨hu.entry hx, ht.entry hx⟩)
    have hlanguage : Mapping.field (.entries es) "language" =
        .ok ((lookupText "language" es).getD .null) := rfl
    obtain ⟨fields, hfields⟩ : ∃ fields, bodyFieldsVerdict settings h (.entries es) = .ok fields :=
      ⟨_, bind_eq_ok.2 ⟨_, rfl, bind_eq_ok.2 ⟨_, rfl, bind_eq_ok.2 ⟨_, rfl, bind_eq_ok.2
        ⟨context, hcontext, bind_eq_ok.2 ⟨_, rfl, bind_eq_ok.2 ⟨format, hformat,
          bind_eq_ok.2 ⟨_, rfl, bind_eq_ok.2 ⟨_, rfl, bind_eq_ok.2
            ⟨_, Heap.truth_eq (ht.field hm hlanguage), rfl⟩⟩⟩⟩⟩⟩⟩⟩⟩⟩
    obtain ⟨references, hreferences⟩ : ∃ w, referenceVerdict h (.entries es) = .ok w := by
      apply referenceVerdict_total
      intro e he
      have hx : h.Entry v e.2 :=
        (Heap.entry_iff (Heap.listed?_of_entries hm)).2 (List.mem_map_of_mem he)
      obtain ⟨d, hd⟩ : ∃ d, h.depthWithin (Heap.walkLimit - 1) 0 [] e.2 = .ok d :=
        Heap.depthWithin_returns (hu.entry hx) (hn e.2 hx).trailLengths_lt
      exact rootsWithin_total hd
    exact ⟨_, bind_eq_ok.2 ⟨required, hrequired, bind_eq_ok.2 ⟨fields, hfields,
      bind_eq_ok.2 ⟨references, hreferences, rfl⟩⟩⟩⟩
  · exact ⟨_, bind_eq_ok.2 ⟨_, Heap.truth_eq (ht [] v rfl), rfl⟩⟩

end Total

/-- If the lists and dictionaries in a value are nested below a limit, measuring its depth ends. It
gives the length of the longest trail that goes through no container noted before, and leaves the
set of these as it was; with none noted it is the length of the longest trail. A review of a body
warns of deep nesting if and only if a trail longer than the limit starts at its context, and it
comes to an end if the body is nested below the limit and nothing in it refuses its truth test.
However containers are shared, values that unfold into the same tree have the same depth, and as
contexts of bodies the same warning, if one of them does not contain itself. -/
theorem depth_and_deepNote (settings : ReviewSettings) (h : Heap) (v : Value) :
    (∀ n, h.Unbarred v → h.EntriesWithin n v → ∀ current noted, ∃ d,
      h.measureWithin n current v noted = .ok (current + d, noted) ∧
        IsGreatest {k | ∃ path, ClearTrail h.Entry noted v path ∧ path.length = k} d) ∧
    (h.Unbarred v → h.EntriesWithin Heap.walkLimit v → ∃ d, h.depth v = .ok d ∧
      IsGreatest {k | ∃ path, Trail h.Entry v path ∧ path.length = k} d) ∧
    (∀ w, body settings h v = .ok w → (deepNote settings.depthLimit ∈ w.warnings ↔
      ∃ c path, HasContext h v c ∧ Trail h.Entry c path ∧ settings.depthLimit < path.length)) ∧
    (h.Unbarred v → h.Testable v →
      (∀ x, h.Entry v x → h.EntriesWithin (Heap.walkLimit - 1) x) →
        ∃ w, body settings h v = .ok w) ∧
    (¬ h.Circles v → ∀ k u, Heap.SameTree h v k u → k.depth u = h.depth v ∧
      ∀ b b' w w', HasContext h b v → HasContext k b' u →
        body settings h b = .ok w → body settings k b' = .ok w' →
          (deepNote settings.depthLimit ∈ w.warnings ↔
            deepNote settings.depthLimit ∈ w'.warnings)) := by
  refine ⟨fun n hu hw current noted => Heap.measureWithin_longest hu hw current noted, ?_, ?_,
    body_total settings, ?_⟩
  · intro hu hw
    obtain ⟨d, hd⟩ := Heap.depth_returns hu hw
    exact ⟨d, hd, Heap.longest_of_depth hd⟩
  · exact fun w hr => deepNote_mem_iff hr
  · intro hv k u hs
    have hdepth := hs.depth_eq hv
    refine ⟨hdepth, fun b b' w w' hc hc' hr hr' => ?_⟩
    obtain ⟨d, hd, hiff⟩ := deepNote_of_context hr hc
    obtain ⟨d', hd', hiff'⟩ := deepNote_of_context hr' hc'
    obtain rfl : d = d' := Except.ok.inj (hd.symm.trans (hdepth.symm.trans hd'))
    exact hiff.trans hiff'.symm

/-- The places of a body with a dictionary that its context holds three times, and with notes that
hold the body, the context and themselves; the context with a dictionary for each of the three; and
a body with that context. -/
def braided : Heap where
  nodes := #[
    .dict [(.text "task", .text "Do it"), (.text "instructions", .text "Use it"),
      (.text "context", .ref ⟨1⟩), (.text "output_format", .ref ⟨4⟩), (.text "variables", .ref ⟨5⟩),
      (.text "notes", .ref ⟨6⟩)],
    .dict [(.text "a", .ref ⟨2⟩), (.text "b", .ref ⟨3⟩)],
    .list [.ref ⟨3⟩, .ref ⟨3⟩],
    .dict [(.text "c", .int 1)],
    .dict [(.text "structure", .text "plain")],
    .list [],
    .list [.ref ⟨6⟩, .ref ⟨0⟩, .ref ⟨1⟩],
    .dict [(.text "a", .ref ⟨8⟩), (.text "b", .ref ⟨11⟩)],
    .list [.ref ⟨9⟩, .ref ⟨10⟩],
    .dict [(.text "c", .int 1)],
    .dict [(.text "c", .int 1)],
    .dict [(.text "c", .int 1)],
    .dict [(.text "task", .text "Do it"), (.text "instructions", .text "Use it"),
      (.text "context", .ref ⟨7⟩), (.text "output_format", .ref ⟨4⟩),
      (.text "variables", .ref ⟨5⟩)]]

def braidedOrigin (r : Ref) : Ref :=
  if r.index ≤ 8 then ⟨r.index - 6⟩ else ⟨3⟩

theorem braided_expands : braided.Expands braidedOrigin ⟨1⟩ ⟨7⟩ := by
  have hw : braided.Within 5 (.ref ⟨7⟩) := by decide
  exact hw.expands_iff.2 (by decide)

/-- Of the notes that hold themselves the longest trail goes by the body and the context; the
context has the depth of its expansion, and the body of each gets the warning. -/
theorem depth_and_deepNote_braided :
    braided.measureWithin Heap.walkLimit 0 (.ref ⟨6⟩) [⟨1⟩] = .ok (3, [⟨1⟩]) ∧
    IsGreatest {k | ∃ path, ClearTrail braided.Entry [⟨1⟩] (.ref ⟨6⟩) path ∧ path.length = k} 3 ∧
    IsGreatest {k | ∃ path, Trail braided.Entry (.ref ⟨6⟩) path ∧ path.length = k} 5 ∧
    braided.depth (.ref ⟨7⟩) = braided.depth (.ref ⟨1⟩) ∧
    ∃ w w', body { depthLimit := 2 } braided (.ref ⟨0⟩) = .ok w ∧
      body { depthLimit := 2 } braided (.ref ⟨12⟩) = .ok w' ∧
      deepNote 2 ∈ w.warnings ∧ deepNote 2 ∈ w'.warnings := by
  have hfree : braided.SealFree := by
    rintro ⟨i⟩ ks message hr
    rcases i with _ | _ | _ | _ | _ | _ | _ | _ | _ | _ | _ | _ | _ | i
    all_goals cases hr
  have hwithin (v : Value) : braided.EntriesWithin Heap.walkLimit v :=
    Heap.entriesWithin_of_size_lt (by decide) v
  have hbelow (v : Value) : braided.EntriesWithin (Heap.walkLimit - 1) v :=
    Heap.entriesWithin_of_size_lt (by decide) v
  have hall (v : Value) := depth_and_deepNote { depthLimit := 2 } braided v
  obtain ⟨hnotes, hlongest, -⟩ := hall (.ref ⟨6⟩)
  obtain ⟨-, hcontext, -, -, hshared⟩ := hall (.ref ⟨1⟩)
  obtain ⟨-, -, hwarned, hends, -⟩ := hall (.ref ⟨0⟩)
  obtain ⟨-, -, -, hends', -⟩ := hall (.ref ⟨12⟩)
  obtain ⟨d, hd, hclear⟩ := hnotes _ (hfree.unbarred _) (hwithin _) 0 [⟨1⟩]
  obtain ⟨e, he, htrail⟩ := hlongest (hfree.unbarred _) (hwithin _)
  obtain ⟨f, hf, ⟨path, ht, hlength⟩, -⟩ := hcontext (hfree.unbarred _) (hwithin _)
  obtain ⟨w, hw⟩ := hends (hfree.unbarred _) (.of_elements (by decide)) fun x _ => hbelow x
  obtain ⟨w', hw'⟩ := hends' (hfree.unbarred _) (.of_elements (by decide)) fun x _ => hbelow x
  have hthree : braided.measureWithin Heap.walkLimit 0 (.ref ⟨6⟩) [⟨1⟩] = .ok (3, [⟨1⟩]) := by
    decide +kernel
  have hfive : braided.depth (.ref ⟨6⟩) = .ok 5 := by decide +kernel
  have hdepth : braided.depth (.ref ⟨1⟩) = .ok 3 := by decide +kernel
  rw [Nat.zero_add] at hd
  cases hd.symm.trans hthree
  cases he.symm.trans hfive
  cases hf.symm.trans hdepth
  have hfirst : HasContext braided (.ref ⟨0⟩) (.ref ⟨1⟩) := ⟨_, rfl, rfl, rfl⟩
  have hsecond : HasContext braided (.ref ⟨12⟩) (.ref ⟨7⟩) := ⟨_, rfl, rfl, rfl⟩
  have hnote : deepNote 2 ∈ w.warnings :=
    (hwarned w hw).2 ⟨.ref ⟨1⟩, path, hfirst, ht, by rw [hlength]; decide⟩
  have hplain : braided.Within 5 (.ref ⟨1⟩) := by decide
  have hsame : Heap.SameTree braided (.ref ⟨1⟩) braided (.ref ⟨7⟩) :=
    braided_expands.sameTree (by decide) (by decide)
  obtain ⟨hequal, hagree⟩ := hshared hplain.not_circles braided _ hsame
  exact ⟨hthree, hclear, htrail, hequal, w, w', hw, hw', hnote,
    (hagree _ _ w w' hfirst hsecond hw hw').1 hnote⟩

end Review

end Promptbook
