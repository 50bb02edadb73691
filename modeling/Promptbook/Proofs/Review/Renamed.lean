import Promptbook.Proofs.Body.Shifted
import Promptbook.Proofs.Heap.Compared
import Promptbook.Review.Record

namespace Promptbook.Review

open Heap (Renamed SealFree)

variable {m : Ref → Ref} {h k : Heap}

@[simp] theorem map_eq_null (v : Value) : v.map m = .null ↔ v = .null := by
  cases v <;> simp [Value.map]

@[simp] theorem isText_map (m : Ref → Ref) (v : Value) : isText (v.map m) = isText v := by
  rw [isText, isText, Value.asText?_map]

@[simp] theorem isBool_map (m : Ref → Ref) (v : Value) : isBool (v.map m) = isBool v := by
  cases v <;> rfl

@[simp] theorem textRule_map (v : Value) (otherwise : String) (rule : String → Verdict) :
    textRule (v.map m) otherwise rule = textRule v otherwise rule := by
  cases v <;> rfl

@[simp] theorem toCategory?_map (v : Value) : (v.map m).toCategory? = v.toCategory? := by
  rw [Value.toCategory?, Value.toCategory?, Value.asText?_map]

theorem require_map (d : Mapping) (names : List String) :
    require (d.map m) names = require d names := by
  induction names with
  | nil => rfl
  | cons name names ih => simp only [require, Mapping.field_map, map_bind, map_eq_null, ih]

theorem flagVerdict_map (d : Mapping) (names : List String) :
    flagVerdict (d.map m) names = flagVerdict d names := by
  induction names with
  | nil => rfl
  | cons name names ih =>
    simp only [flagVerdict, Mapping.get_map, map_bind, Option.any_map, isBool_map,
      ih]

theorem variableVerdicts_map (index : Nat) (vs : List Value) :
    variableVerdicts index (vs.map (Value.map m)) = variableVerdicts index vs := by
  induction vs generalizing index with
  | nil => rfl
  | cons v vs ih =>
    simp only [List.map_cons, variableVerdicts, variableVerdict, Value.asText?_map, ih]

theorem collect_map {α β γ : Type} (g : α → β) (step : β → Except Fault (List γ)) (xs : List α) :
    collect step (xs.map g) = collect (fun x => step (g x)) xs := by
  induction xs with
  | nil => rfl
  | cons x xs ih => simp only [List.map_cons, collect, ih]

variable (hm : Renamed m h k)
include hm

section Body

theorem contextVerdict_renamed (limit : Nat) (v : Value) :
    contextVerdict k limit (v.map m) = contextVerdict h limit v := by
  simp only [contextVerdict, map_eq_null, hm.isMapping_eq, hm.depth_eq, hm.truthy_eq]

theorem formatVerdict_renamed (v : Value) :
    formatVerdict k (v.map m) = formatVerdict h v := by
  cases v with
  | ref r =>
    have hr := hm.mapping?_eq (.ref r)
    rw [Value.map_ref] at hr
    simp only [formatVerdict, Value.map_ref, hr]
    cases h.mapping? (.ref r) with
    | none => rfl
    | some d =>
      simp only [Option.map_some, Mapping.field_map, map_bind, flagVerdict_map, hm.truth_eq,
        isText_map]
  | _ => rfl

theorem variablesVerdict_renamed (limit : Nat) (v : Value) :
    variablesVerdict k limit (v.map m) = variablesVerdict h limit v := by
  cases v with
  | ref r =>
    have hr := hm.list?_eq (.ref r)
    rw [Value.map_ref] at hr
    simp only [variablesVerdict, Value.map_ref, hr]
    cases h.list? (.ref r) with
    | none => rfl
    | some vs =>
      simp only [Option.map_some, List.length_map, variableVerdicts_map, List.filterMap_map,
        Function.comp_def, Value.asText?_map]
  | _ => rfl

theorem rootsWithin_renamed (n : Nat) (ancestors : List Ref) (v : Value) :
    rootsWithin k n (ancestors.map m) (v.map m) = rootsWithin h n ancestors v := by
  induction n generalizing ancestors v with
  | zero => rfl
  | succ n ih =>
    rw [rootsWithin, rootsWithin, Value.asText?_map, Value.asRef?_map, hm.listed?_eq]
    cases v.asText? with
    | some s => rfl
    | none =>
      cases v.asRef? with
      | none => rfl
      | some r =>
        have hx := ih (r :: ancestors)
        rw [List.map_cons] at hx
        cases h.listed? v with
        | none => rfl
        | some children => simp only [Option.map_some, hm.mem_iff, map_bind, collect_map, hx]

theorem collectRoots_renamed (n : Nat) (vs : List Value) :
    collect (rootsWithin k n []) (vs.map (Value.map m)) = collect (rootsWithin h n []) vs := by
  have hx := rootsWithin_renamed hm n []
  rw [List.map_nil] at hx
  simp only [collect_map, hx]

theorem usedRoots_renamed (d : Mapping) : usedRoots k (d.map m) = usedRoots h d := by
  rw [usedRoots, usedRoots, Mapping.items_map, map_bind]
  congr 1
  funext es
  have hothers : (((es.map fun e => (e.1.map m, e.2.map m)).filter fun e =>
      e.1.asText? ≠ some "variables").map (·.2)) =
        (((es.filter fun e => e.1.asText? ≠ some "variables").map (·.2)).map (Value.map m)) := by
    simp only [List.filter_map, Function.comp_def, Value.asText?_map, List.map_map]
  dsimp only
  rw [hothers]
  exact collectRoots_renamed hm _ _

theorem declaredRoots_renamed (d : Mapping) : declaredRoots k (d.map m) = declaredRoots h d := by
  simp only [declaredRoots, Mapping.field_map, map_bind, hm.list?_eq]
  congr 1
  funext v
  cases h.list? v with
  | none => rfl
  | some vs =>
    simp only [Option.map_some, Option.getD_some, List.filterMap_map, Function.comp_def,
      Value.asText?_map]

theorem referenceVerdict_renamed (d : Mapping) :
    referenceVerdict k (d.map m) = referenceVerdict h d := by
  rw [referenceVerdict, referenceVerdict, declaredRoots_renamed hm, usedRoots_renamed hm]

theorem bodyFieldsVerdict_renamed (settings : ReviewSettings) (d : Mapping) :
    bodyFieldsVerdict settings k (d.map m) = bodyFieldsVerdict settings h d := by
  simp only [bodyFieldsVerdict, Mapping.field_map, map_bind, longText, textRule_map,
    contextVerdict_renamed hm, formatVerdict_renamed hm, variablesVerdict_renamed hm, hm.truth_eq,
    isText_map]

theorem body_renamed (settings : ReviewSettings) (v : Value) :
    body settings k (v.map m) = body settings h v := by
  rw [body, body, hm.mapping?_eq, hm.truthy_eq, hm.truth_eq]
  cases h.mapping? v with
  | none => rfl
  | some d =>
    cases h.truthy v with
    | false => rfl
    | true =>
      simp only [Option.map_some, require_map, bodyFieldsVerdict_renamed hm,
        referenceVerdict_renamed hm]

end Body

section Record

theorem categoryVerdict_renamed (v : Value) :
    categoryVerdict k (v.map m) = categoryVerdict h v := by
  simp only [categoryVerdict, map_eq_null, toCategory?_map, hm.text_eq]

omit hm in
theorem schemaVerdict_map (h k : Heap) (versions : List String) (v : Value) :
    schemaVerdict versions k (v.map m) = schemaVerdict versions h v := by
  cases v <;> rfl

theorem dateVerdict_renamed (label : String) (v : Value) :
    dateVerdict k label (v.map m) = dateVerdict h label v := by
  rw [dateVerdict, dateVerdict, hm.truth_eq, Value.asText?_map]

theorem ownFieldsVerdict_renamed (settings : ReviewSettings) (d : Mapping) :
    ownFieldsVerdict settings k (d.map m) = ownFieldsVerdict settings h d := by
  simp only [ownFieldsVerdict, Mapping.field_map, map_bind, idVerdict, nameVerdict,
    descriptionVerdict, versionVerdict, textRule_map, categoryVerdict_renamed hm,
    schemaVerdict_map h, dateVerdict_renamed hm]

theorem configurableVerdict_renamed (v : Value) :
    configurableVerdict k (v.map m) = configurableVerdict h v := by
  cases v with
  | ref r =>
    have hr := hm.list?_eq (.ref r)
    rw [Value.map_ref] at hr
    simp only [configurableVerdict, Value.map_ref, hr]
    cases h.list? (.ref r) with
    | none => rfl
    | some vs => simp only [Option.map_some, List.all_map, Function.comp_def, isText_map]
  | _ => rfl

theorem mappingVerdict_renamed (name : String) (v : Value) :
    mappingVerdict k name (v.map m) = mappingVerdict h name v := by
  simp only [mappingVerdict, ne_eq, map_eq_null, hm.isMapping_eq]

theorem options_renamed (v : Value) : options k (v.map m) = options h v := by
  rw [options, options, hm.mapping?_eq]
  cases h.mapping? v with
  | none => rfl
  | some d =>
    simp only [Option.map_some, require_map, Mapping.field_map, map_bind,
      configurableVerdict_renamed hm, mappingVerdict_renamed hm, hm.truth_eq, hm.isList_eq,
      isText_map]

theorem lostFields_renamed (content : Value) (vs : List Value) :
    lostFields k (content.map m) (vs.map (Value.map m)) = lostFields h content vs := by
  induction vs with
  | nil => rfl
  | cons v vs ih =>
    simp only [List.map_cons, lostFields, Value.asText?_map, hm.hasPath_eq, hm.text_eq, ih]

theorem strayDefaults_renamed (names keys : List Value) :
    strayDefaults k (names.map (Value.map m)) (keys.map (Value.map m)) =
      strayDefaults h names keys := by
  induction keys with
  | nil => rfl
  | cons key keys ih =>
    simp only [List.map_cons, strayDefaults, hm.listHas_eq, hm.text_eq, ih]

theorem agreementVerdict_renamed (hf : h.SealFree) (d : Mapping) :
    agreementVerdict k (d.map m) = agreementVerdict h d := by
  have hwhen (b : Bool) (o : Option (List Value)) :
      (if b then o else some []).map (List.map (Value.map m)) =
        if b then o.map (List.map (Value.map m)) else some [] := by
    cases b <;> rfl
  have hkeys (b : Bool) (v : Value) :
      (if b then (k.mapping? (v.map m)).map Mapping.keys else none).getD [] =
        ((if b then (h.mapping? v).map Mapping.keys else none).getD []).map (Value.map m) := by
    rw [hm.keys_eq hf]
    cases b with
    | false => rfl
    | true => cases (h.mapping? v).map Mapping.keys <;> rfl
  simp only [agreementVerdict, Mapping.field_map, map_bind, hm.mapping?_eq]
  congr 1
  funext content
  congr 1
  funext given
  cases h.mapping? content with
  | none => rfl
  | some c =>
    cases h.mapping? given with
    | none => rfl
    | some o =>
      simp only [Option.map_some, Mapping.field_map, map_bind, hm.truth_eq, hm.list?_eq]
      congr 1
      funext configurable
      congr 1
      funext chosen
      rw [← hwhen]
      cases if chosen then h.list? configurable else some [] with
      | none => rfl
      | some names =>
        simp only [Option.map_some, lostFields_renamed hm, hkeys, strayDefaults_renamed hm]

/-- The verdict on a definition does not depend on the names of its containers. -/
theorem record_renamed (hf : h.SealFree) (settings : ReviewSettings) (v : Value) :
    record settings k (v.map m) = record settings h v := by
  rw [record, record, hm.mapping?_eq, hm.truthy_eq, hm.truth_eq]
  cases h.mapping? v with
  | none => rfl
  | some d =>
    cases h.truthy v with
    | false => rfl
    | true =>
      simp only [Option.map_some, require_map, ownFieldsVerdict_renamed hm, Mapping.field_map,
        map_bind, unlessNull, map_eq_null, body_renamed hm, options_renamed hm,
        agreementVerdict_renamed hm hf]

end Record

end Promptbook.Review
