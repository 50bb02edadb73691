import Mathlib.Data.String.Basic
import Promptbook.Proofs.Body.Found
import Promptbook.Proofs.Body.Separate
import Promptbook.Proofs.Body.Texts
import Promptbook.Proofs.Review.Accepted

namespace Promptbook

namespace Verdict

def Opens (c : Char) (w : Verdict) : Prop :=
  ∀ s ∈ w.warnings, s.toList.head? = some c

variable {c : Char} {v w : Verdict} {vs : List Verdict} {b : Bool} {s : String}

theorem opens_clean : clean.Opens c := List.forall_mem_nil _

theorem opens_error : (error s).Opens c := List.forall_mem_nil _

theorem opens_errorIf : (errorIf b s).Opens c := by
  cases b with
  | false => exact opens_clean
  | true => exact opens_error

theorem opens_warnIf (hs : s.toList.head? = some c) : (warnIf b s).Opens c := by
  cases b with
  | false => exact opens_clean
  | true => exact List.forall_mem_singleton.2 hs

theorem Opens.append (hv : v.Opens c) (hw : w.Opens c) : (v ++ w).Opens c :=
  List.forall_mem_append.2 ⟨hv, hw⟩

theorem opens_join (hvs : ∀ v ∈ vs, v.Opens c) : (join vs).Opens c := by
  induction vs with
  | nil => exact opens_clean
  | cons v vs ih =>
    rw [List.forall_mem_cons] at hvs
    exact hvs.1.append (ih hvs.2)

end Verdict

namespace Review

open Verdict

variable {settings : ReviewSettings} {h : Heap} {m : Mapping} {v : Value} {w : Verdict}
  {names others : List String} {name message : String} {limit index : Nat} {c : Char}

theorem head?_append {a b : String} (ha : a.toList.head? = some c) :
    (a ++ b).toList.head? = some c := by
  rw [String.toList_append, List.head?_append, ha, Option.some_or]

theorem opens_require (hr : require m names = .ok w) : w.Opens c := by
  induction names generalizing w with
  | nil =>
    cases hr
    exact opens_clean
  | cons name names ih =>
    simp only [require, bind_eq_ok, pure_eq_ok] at hr
    obtain ⟨u, -, rest, hrest, rfl⟩ := hr
    exact opens_errorIf.append (ih hrest)

theorem opens_textRule {rule : String → Verdict} (hrule : ∀ s, (rule s).Opens c) :
    (textRule v message rule).Opens c := by
  unfold textRule
  split
  · exact opens_clean
  · exact hrule _
  · exact opens_error

theorem opens_longText {verb : String} : (longText limit name verb v).Opens c := by
  apply opens_textRule
  intro s
  apply opens_join
  simp only [List.forall_mem_cons]
  exact ⟨opens_errorIf, opens_errorIf, List.forall_mem_nil _⟩

theorem opens_contextVerdict (hr : contextVerdict h limit v = .ok w) : w.Opens 'T' := by
  rw [contextVerdict] at hr
  split at hr
  · cases hr
    exact opens_clean
  · split at hr
    · cases hr
      exact opens_error
    · simp only [bind_eq_ok, pure_eq_ok] at hr
      obtain ⟨depth, -, rfl⟩ := hr
      exact (opens_warnIf rfl).append (opens_warnIf (head?_append (head?_append rfl)))

theorem opens_flagVerdict (hr : flagVerdict m names = .ok w) : w.Opens c := by
  induction names generalizing w with
  | nil =>
    cases hr
    exact opens_clean
  | cons name names ih =>
    simp only [flagVerdict, bind_eq_ok, pure_eq_ok] at hr
    obtain ⟨u, -, rest, hrest, rfl⟩ := hr
    exact opens_errorIf.append (ih hrest)

theorem opens_formatVerdict (hr : formatVerdict h v = .ok w) : w.Opens c := by
  unfold formatVerdict at hr
  split at hr
  · cases hr
    exact opens_clean
  · cases hr
    exact opens_error
  · simp only [bind_eq_ok, pure_eq_ok] at hr
    obtain ⟨layout, -, given, -, flags, hflags, rfl⟩ := hr
    exact opens_errorIf.append (opens_flagVerdict hflags)

theorem opens_variableVerdict : (variableVerdict index v).Opens c := by
  rw [variableVerdict]
  split
  · exact opens_error
  · exact opens_errorIf

theorem opens_variableVerdicts (vs : List Value) :
    ∀ w ∈ variableVerdicts index vs, w.Opens c := by
  induction vs generalizing index with
  | nil => exact List.forall_mem_nil _
  | cons v vs ih => exact List.forall_mem_cons.2 ⟨opens_variableVerdict, ih⟩

theorem opens_variablesVerdict : (variablesVerdict h limit v).Opens 'T' := by
  unfold variablesVerdict
  split
  · exact opens_clean
  · exact opens_error
  · apply opens_join
    simp only [List.forall_mem_cons]
    exact ⟨opens_warnIf (head?_append (head?_append rfl)), opens_join (opens_variableVerdicts _),
      opens_warnIf rfl, List.forall_mem_nil _⟩

theorem opens_bodyFieldsVerdict (hr : bodyFieldsVerdict settings h m = .ok w) : w.Opens 'T' := by
  simp only [bodyFieldsVerdict, bind_eq_ok, pure_eq_ok] at hr
  obtain ⟨task, -, instructions, -, context, -, cv, hcv, format, -, fv, hfv, declared, -,
    language, -, given, -, rfl⟩ := hr
  apply opens_join
  simp only [List.forall_mem_cons]
  exact ⟨opens_longText, opens_longText, opens_contextVerdict hcv, opens_formatVerdict hfv,
    opens_variablesVerdict, opens_errorIf, List.forall_mem_nil _⟩

def usedNote (name : String) : String :=
  s!"Variable '{name}' is used but not declared in variables array"

def unusedNote (name : String) : String :=
  s!"Variable '{name}' is declared but not used in template"

theorem head?_usedNote (name : String) : (usedNote name).toList.head? = some 'V' :=
  head?_append (head?_append rfl)

theorem head?_unusedNote (name : String) : (unusedNote name).toList.head? = some 'V' :=
  head?_append (head?_append rfl)

theorem mem_missingFrom : name ∈ missingFrom others names ↔ name ∈ names ∧ name ∉ others := by
  rw [missingFrom, List.mem_mergeSort, List.mem_eraseDups, List.mem_filter, decide_eq_true_iff]

theorem nodup_eraseDups (names : List String) : names.eraseDups.Nodup := by
  have hnew : (Walk.addNew [] names).Nodup := Walk.nodup_addNew List.nodup_nil
  rw [Walk.addNew_eq] at hnew
  simpa using hnew

theorem pairwise_missingFrom : (missingFrom others names).Pairwise (· < ·) := by
  have htrans (a b d : String) (hab : decide (a ≤ b) = true) (hbd : decide (b ≤ d) = true) :
      decide (a ≤ d) = true :=
    decide_eq_true ((of_decide_eq_true hab).trans (of_decide_eq_true hbd))
  have htotal (a b : String) : (decide (a ≤ b) || decide (b ≤ a)) = true := by
    simpa using le_total a b
  have hsorted := List.pairwise_mergeSort htrans htotal ((names.filter (· ∉ others)).eraseDups)
  have hnodup : (missingFrom others names).Nodup :=
    (List.mergeSort_perm _ _).nodup_iff.2 (nodup_eraseDups _)
  refine (hsorted.and hnodup).imp fun hab => ?_
  exact lt_of_le_of_ne (of_decide_eq_true hab.1) hab.2

/-- What a review of a body warns of: faults of its fields, and then the names on which its
placeholders and its list of variables differ. -/
theorem warnings_body (hr : body settings h v = .ok w) (hm : h.mapping? v = some m)
    (ht : h.truthy v = true) :
    ∃ own used declared, usedRoots h m = .ok used ∧ declaredRoots h m = .ok declared ∧
      (∀ s ∈ own, s.toList.head? = some 'T') ∧
      w.warnings = own ++ (missingFrom declared used).map usedNote ++
        (missingFrom used declared).map unusedNote := by
  simp only [body, hm, ht, bind_eq_ok, pure_eq_ok] at hr
  obtain ⟨required, hrequired, fields, hfields, references, hreferences, rfl⟩ := hr
  simp only [referenceVerdict, bind_eq_ok, pure_eq_ok] at hreferences
  obtain ⟨declared, hdeclared, used, hused, rfl⟩ := hreferences
  refine ⟨(required ++ fields).warnings, used, declared, hused, hdeclared,
    (opens_require hrequired).append (opens_bodyFieldsVerdict hfields), ?_⟩
  simp only [join, List.foldr_cons, List.foldr_nil, warnings_append, clean, List.append_nil,
    List.append_assoc]
  rfl

end Review

namespace Heap

variable {h : Heap} {b : Ref} {es : List (Value × Value)} {x : Value} {names : List String}
  {name : String}

theorem mem_filledEntries (hb : h.get? b = some (.dict es)) :
    x ∈ h.filledEntries b ↔ ∃ e ∈ es, e.1.asText? ≠ some "variables" ∧ e.2 = x := by
  simp only [filledEntries, hb, Option.bind_some, List.mem_filterMap, Walk.entryIndices_eq hb,
    List.mem_filter, List.mem_range, decide_eq_true_iff, Node.slot?, Option.map_eq_some_iff]
  constructor
  · intro hx
    obtain ⟨i, ⟨-, hkey⟩, e, he, rfl⟩ := hx
    rw [he] at hkey
    exact ⟨e, List.mem_of_getElem? he, hkey, rfl⟩
  · intro hx
    obtain ⟨e, he, hkey, rfl⟩ := hx
    obtain ⟨i, hi⟩ := List.mem_iff_getElem?.1 he
    refine ⟨i, ⟨(List.getElem?_eq_some_iff.1 hi).1, ?_⟩, e, hi, rfl⟩
    rw [hi]
    exact hkey

/-- The review and the resolution of a body find the same names in its entries. -/
theorem mem_usedRoots (hb : h.get? b = some (.dict es))
    (hrun : Review.usedRoots h (.entries es) = .ok names) :
    name ∈ names ↔ name ∈ (h.metPaths b).map Review.root := by
  simp only [Review.usedRoots, Mapping.items, ok_bind] at hrun
  simp only [Review.mem_collect hrun, metPaths, List.map_flatMap, List.mem_flatMap,
    mem_filledEntries hb, List.mem_map, List.mem_filter, decide_eq_true_iff, mem_tour,
    List.mem_singleton, exists_eq_left]
  constructor
  · intro hname
    obtain ⟨x, ⟨e, ⟨he, hkey⟩, rfl⟩, zs, hzs, hname⟩ := hname
    obtain ⟨s, hf, hs⟩ := (Review.mem_rootsWithin hzs).1 hname
    exact ⟨e.2, ⟨e, he, hkey, rfl⟩, s, hf, List.mem_map.1 hs⟩
  · intro hname
    obtain ⟨x, ⟨e, he, hkey, rfl⟩, s, hf, hs⟩ := hname
    have hmem : e.2 ∈ (es.filter fun e => e.1.asText? ≠ some "variables").map (·.2) :=
      List.mem_map_of_mem (List.mem_filter.2 ⟨he, decide_eq_true hkey⟩)
    obtain ⟨zs, hzs⟩ := Review.collect_ok hrun e.2 hmem
    have hname := (Review.mem_rootsWithin hzs).2 ⟨s, hf, List.mem_map.2 hs⟩
    exact ⟨e.2, ⟨e, ⟨he, hkey⟩, rfl⟩, zs, hzs, hname⟩

end Heap

namespace Prompt

variable {h k : Heap} {p : Prompt} {values content : Value} {used : List String} {b : Ref}
  {es : List (Value × Value)}

/-- The paths that the walk through the copy of a body notes, before the names declared are
added. -/
def noted (h : Heap) (p : Prompt) (values : Value) : List String :=
  match h.copy p.body with
  | .ok (.ref r, copied) =>
    match Walk.fillEntries values r ⟨copied, [], []⟩ with
    | .ok w => w.used
    | .error _ => []
  | _ => []

theorem used_of_fillChecked (hrun : p.fillChecked h values = .filled content used k) :
    used = Walk.addNew (p.noted h values) (p.declared h) := by
  obtain ⟨r, k₁, w, hcopy, hfill, -, hused, -⟩ := fillChecked_inv hrun
  rw [hused, noted, hcopy]
  simp only [hfill]

theorem noted_of_filled (hr : Walk.Ready h values b es) (hp : p.body = .ref b)
    (ho : h.Once b (Walk.entryIndices h b))
    (hrun : p.fillChecked h values = .filled content used k) :
    p.noted h values = Walk.addNew [] (h.metPaths b) := by
  obtain ⟨r, k₁, w, hcopy, hfill, -⟩ := fillChecked_inv hrun
  rw [noted, hcopy]
  simp only [hfill]
  rw [hp] at hcopy
  obtain ⟨m, hm⟩ := Heap.isCopy_of_copy hr.closed hr.holds_body hcopy
  obtain rfl : r = m b := Value.ref.inj hm.value
  exact ((hr.fillEntries_eq_ok hm hfill).2 ho).1

theorem declaredRoots_eq {roots : List String} (hbody : p.body = .ref b)
    (hb : h.get? b = some (.dict es)) (hrun : Review.declaredRoots h (.entries es) = .ok roots) :
    roots = (p.declared h).map Review.root := by
  have hd : h.dict? p.body = some es := by
    rw [hbody, Heap.dict?, Heap.node?_ref, hb]
  simp only [Review.declaredRoots, Mapping.field, Mapping.get, Except.map, ok_bind, pure_eq_ok]
    at hrun
  rw [← hrun, declared, hd]
  cases hv : lookupText "variables" es with
  | none =>
    simp only [hv]
    rfl
  | some v =>
    simp only [hv, Option.getD_some, Option.bind_some]
    cases h.list? v with
    | none => rfl
    | some xs => rfl

end Prompt

theorem Body.truthy_of_check {h : Heap} {body : Value} {verdict : Verdict}
    (hc : check h body = .ok verdict) (ha : verdict.accepts = true) : h.truthy body = true := by
  rw [check] at hc
  split at hc
  · assumption
  · simp only [bind_eq_ok, pure_eq_ok] at hc
    obtain ⟨_, -, rfl⟩ := hc
    cases ha

namespace Action

variable {s s' : Session} {p : Prompt} {values : Value} {payload : Payload} {reporting : Bool}
  {settings : ReviewSettings} {verdict : Verdict} {b : Ref}

theorem fillChecked_of_resolve (hc : s.heap.Closed) (hp : p.Stored s.heap)
    (hrun : (resolve reporting (some p) values).run.run s = (.ok payload, s')) :
    ∃ b es k, p.body = .ref b ∧ s.heap.get? b = some (.dict es) ∧ s.heap.truthy p.body = true ∧
      p.fillChecked (s.heap.supply values).2 (s.heap.supply values).1 =
        .filled payload.content payload.used k := by
  rw [run_resolve] at hrun
  obtain ⟨k, hfill, -⟩ := resolvePrompt_eq_ok hrun
  have hcheck := Body.check_eq (s.heap.extends_supply values) hc hp.body
  simp only [Prompt.fill, hcheck] at hfill
  cases hverdict : Body.check s.heap p.body with
  | error cause =>
    rw [hverdict] at hfill
    cases hfill
  | ok verdict =>
    rw [hverdict] at hfill
    simp only [] at hfill
    split at hfill
    · next haccepts =>
      obtain ⟨b, es, hbody, hb⟩ := Body.dict_of_check hverdict haccepts
      exact ⟨b, es, k, hbody, hb, Body.truthy_of_check hverdict haccepts, hfill⟩
    · cases hfill

/-- If a body whose entries share nothing passes its review, and its resolution returns, the review
warned of the first segments of the paths noted that are not declared, and of those declared that
are not noted. -/
theorem review_references (hc : s.heap.Closed) (hp : p.Stored s.heap) (hv : s.heap.Holds values)
    (hbody : p.body = .ref b) (hs : s.heap.Separate b)
    (hreview : Review.body settings s.heap p.body = .ok verdict)
    (hrun : (resolve reporting (some p) values).run.run s = (.ok payload, s')) :
    ∃ noted own used unused : List String,
      noted = p.noted (s.heap.supply values).2 (s.heap.supply values).1 ∧
      payload.used = Walk.addNew noted (p.declared s.heap) ∧
      verdict.warnings = own ++ used.map Review.usedNote ++ unused.map Review.unusedNote ∧
      (∀ name, Review.usedNote name ∉ own ∧ Review.unusedNote name ∉ own) ∧
      used.Pairwise (· < ·) ∧ unused.Pairwise (· < ·) ∧
      ∀ name,
        (name ∈ used ↔ name ∈ noted.map Review.root ∧
          name ∉ (p.declared s.heap).map Review.root) ∧
        (name ∈ unused ↔ name ∈ (p.declared s.heap).map Review.root ∧
          name ∉ noted.map Review.root) := by
  obtain ⟨b', es, k, hbody', hb, htruthy, hfill⟩ := fillChecked_of_resolve hc hp hrun
  obtain rfl := Value.ref.inj (hbody.symm.trans hbody')
  have he := s.heap.extends_supply values
  have hbheld : s.heap.Holds (.ref b) := hbody ▸ hp.body
  have hready := Walk.ready_supply hc hv hb hs.apart_body
  have hnoted := Prompt.noted_of_filled hready hbody
    (he.once hc hbheld (hs.once (Walk.entryIndices (s.heap.supply values).2 b))) hfill
  rw [he.metPaths_eq hc hbheld] at hnoted
  have hused := Prompt.used_of_fillChecked hfill
  rw [Prompt.declared_eq he hc hp.body] at hused
  have hm : s.heap.mapping? p.body = some (.entries es) := by
    rw [hbody, Heap.mapping?, Heap.node?_ref, hb]
  obtain ⟨own, usedRoots, declaredRoots, hroots, hdeclared, hown, hwarnings⟩ :=
    Review.warnings_body hreview hm htruthy
  have hsame (name : String) : name ∈ usedRoots ↔
      name ∈ (p.noted (s.heap.supply values).2 (s.heap.supply values).1).map Review.root := by
    rw [Heap.mem_usedRoots hb hroots, hnoted]
    simp only [List.mem_map, Walk.mem_addNew, List.not_mem_nil, false_or]
  rw [Prompt.declaredRoots_eq hbody hb hdeclared] at hwarnings
  refine ⟨_, own, _, _, rfl, hused, hwarnings, fun name => ⟨fun hin => ?_, fun hin => ?_⟩,
    Review.pairwise_missingFrom, Review.pairwise_missingFrom, fun name => ⟨?_, ?_⟩⟩
  · cases (hown _ hin).symm.trans (Review.head?_usedNote name)
  · cases (hown _ hin).symm.trans (Review.head?_unusedNote name)
  · rw [Review.mem_missingFrom, hsame]
  · rw [Review.mem_missingFrom, hsame]

/-- The places of a prompt whose context contains itself. It uses a name that is not declared and
declares one that is not used. -/
def agreedHeap : Heap where
  nodes := #[
    .dict [(.text "task", .text "Do ${a.x} and ${z}"), (.text "instructions", .text "Use it"),
      (.text "context", .ref ⟨1⟩), (.text "output_format", .ref ⟨2⟩), (.text "variables", .ref ⟨3⟩)],
    .dict [(.text "again", .ref ⟨1⟩)],
    .dict [(.text "structure", .text "plain")],
    .list [.text "a", .text "d"]]

def agreedSession : Session := { heap := agreedHeap }

/-- Both checks accept the prompt whose context contains itself, and they differ on the two
names. -/
theorem review_references_agreed : ∃ payload s', ∃ own used unused : List String,
    Review.body {} agreedHeap loopedPrompt.body =
      .ok ⟨[], own ++ used.map Review.usedNote ++ unused.map Review.unusedNote⟩ ∧
    (resolve false (some loopedPrompt) .null).run.run agreedSession = (.ok payload, s') ∧
    "z" ∈ used ∧ "a" ∉ used ∧ "d" ∈ unused ∧ "a" ∉ unused := by
  have hc : agreedSession.heap.Closed := by decide
  have hv : agreedSession.heap.Holds .null := fun _ hnull => by cases hnull
  have hp : loopedPrompt.Stored agreedSession.heap := ⟨by decide, by decide, fun _ hm => by cases hm⟩
  have hs : agreedSession.heap.Separate ⟨0⟩ :=
    Heap.separate_of_owner (fun r => r.index + 1) rfl (by decide) (by decide)
  have hnested : agreedSession.heap.Nested agreedSession.heap.depths.resolve []
      loopedPrompt.body :=
    have hn : agreedSession.heap.Nested 4 [] loopedPrompt.body := by decide
    have hle : 4 ≤ agreedSession.heap.depths.resolve := by decide
    hn.mono hle
  have hf (t : String) : agreedSession.heap.Fills .null t :=
    ⟨t, Heap.substitute_of_lookup_none agreedSession.heap.lookup_null⟩
  obtain ⟨payload, s', hrun⟩ := resolve_total false hc hp
    ⟨⟨"looped", Heap.text_text _ _⟩, fun _ hm => by cases hm⟩ hv hs.apart_body
    (show Body.check agreedSession.heap loopedPrompt.body = .ok ⟨[], []⟩ from rfl) rfl hnested
    (.of_elements (by decide)) fun _ _ => .inr hf
  have hreview : Review.body {} agreedSession.heap loopedPrompt.body =
      .ok ⟨[], [Review.usedNote "z", Review.unusedNote "d"]⟩ := by decide +kernel
  have hdeclared : loopedPrompt.declared agreedSession.heap = ["a", "d"] := by decide +kernel
  have hnoted : loopedPrompt.noted (agreedSession.heap.supply .null).2
      (agreedSession.heap.supply .null).1 = ["a.x", "z"] := by decide +kernel
  have hnotedRoots : ["a.x", "z"].map Review.root = ["a", "z"] := by decide +kernel
  have hdeclaredRoots : ["a", "d"].map Review.root = ["a", "d"] := by decide +kernel
  obtain ⟨_, own, used, unused, rfl, -, hwarnings, -, -, -, hiff⟩ :=
    review_references hc hp hv rfl hs hreview hrun
  simp only [hnoted, hdeclared, hnotedRoots, hdeclaredRoots] at hiff hwarnings
  refine ⟨payload, s', own, used, unused, hwarnings ▸ hreview, hrun, ?_⟩
  rw [(hiff "z").1, (hiff "a").1, (hiff "d").2, (hiff "a").2]
  decide

end Action

end Promptbook
