import Promptbook.Proofs.Heap.Route

namespace Promptbook

variable {m m' : Ref → Ref}

theorem Value.map_id (v : Value) : v.map (fun r => r) = v :=
  Value.map_eq_self fun _ _ => rfl

namespace Hints

def parts (hints : Hints) : List Value :=
  [hints.languages, hints.context, hints.notes, hints.legacy]

def map (m : Ref → Ref) (hints : Hints) : Hints where
  languages := hints.languages.map m
  context := hints.context.map m
  notes := hints.notes.map m
  legacy := hints.legacy.map m

theorem map_congr {hints : Hints} (hv : ∀ v ∈ hints.parts, v.map m = v.map m') :
    hints.map m = hints.map m' := by
  simp only [parts, List.forall_mem_cons] at hv
  obtain ⟨hlanguages, hcontext, hnotes, hlegacy, -⟩ := hv
  rw [map, map, hlanguages, hcontext, hnotes, hlegacy]

theorem map_id (hints : Hints) : hints.map (fun r => r) = hints := by
  simp only [map, Value.map_id]

theorem map_eq_self {hints : Hints} (hv : ∀ v ∈ hints.parts, v.map m = v) :
    hints.map m = hints :=
  (map_congr fun v hmem => (hv v hmem).trans v.map_id.symm).trans hints.map_id

end Hints

namespace Options

def parts (o : Options) : List Value :=
  [o.fields, o.defaults, o.rules, o.focus, o.threshold]

def map (m : Ref → Ref) (o : Options) : Options where
  fields := o.fields.map m
  defaults := o.defaults.map m
  rules := o.rules.map m
  focus := o.focus.map m
  threshold := o.threshold.map m

theorem map_congr {o : Options} (hv : ∀ v ∈ o.parts, v.map m = v.map m') :
    o.map m = o.map m' := by
  simp only [parts, List.forall_mem_cons] at hv
  obtain ⟨hfields, hdefaults, hrules, hfocus, hthreshold, -⟩ := hv
  rw [map, map, hfields, hdefaults, hrules, hfocus, hthreshold]

theorem map_id (o : Options) : o.map (fun r => r) = o := by
  simp only [map, Value.map_id]

end Options

namespace Prompt

def parts (p : Prompt) : List Value :=
  [p.id, p.name, p.body, p.description, p.version, p.schemaVersion, p.author, p.created,
      p.modified] ++
    p.options.parts ++ (p.hints.map Hints.parts).getD []

def map (m : Ref → Ref) (p : Prompt) : Prompt where
  serial := p.serial
  id := p.id.map m
  name := p.name.map m
  body := p.body.map m
  description := p.description.map m
  category := p.category
  version := p.version.map m
  schemaVersion := p.schemaVersion.map m
  options := p.options.map m
  hints := p.hints.map (Hints.map m)
  author := p.author.map m
  created := p.created.map m
  modified := p.modified.map m

theorem mem_parts_of_hints {p : Prompt} {hints : Hints} {v : Value} (hp : p.hints = some hints)
    (hv : v ∈ hints.parts) : v ∈ p.parts := by
  rw [parts, hp]
  exact List.mem_append_right _ hv

theorem map_congr {p : Prompt} (hv : ∀ v ∈ p.parts, v.map m = v.map m') :
    p.map m = p.map m' := by
  have hhints : p.hints.map (Hints.map m) = p.hints.map (Hints.map m') := by
    cases hp : p.hints with
    | none => rfl
    | some hints =>
      exact congrArg some (Hints.map_congr fun v hmem => hv v (mem_parts_of_hints hp hmem))
  have hoptions : p.options.map m = p.options.map m' :=
    Options.map_congr fun v hmem =>
      hv v (List.mem_append_left _ (List.mem_append_right _ hmem))
  simp only [parts, List.cons_append, List.forall_mem_cons] at hv
  obtain ⟨hid, hname, hbody, hdescription, hversion, hschema, hauthor, hcreated, hmodified, -⟩ := hv
  rw [map, map, hid, hname, hbody, hdescription, hversion, hschema, hauthor, hcreated, hmodified,
    hhints, hoptions]

theorem map_id (p : Prompt) : p.map (fun r => r) = p := by
  have hhints : p.hints.map (Hints.map fun r => r) = p.hints := by
    cases p.hints with
    | none => rfl
    | some hints => exact congrArg some hints.map_id
  simp only [map, Value.map_id, Options.map_id, hhints]

theorem map_eq_self {p : Prompt} (hv : ∀ v ∈ p.parts, v.map m = v) : p.map m = p :=
  (map_congr fun v hmem => (hv v hmem).trans v.map_id.symm).trans p.map_id

end Prompt

namespace Payload

def parts (payload : Payload) : List Value :=
  payload.content :: payload.hints.parts

def map (m : Ref → Ref) (payload : Payload) : Payload where
  content := payload.content.map m
  hints := payload.hints.map m
  used := payload.used

end Payload

end Promptbook
