import Promptbook.Proofs.Body.Trodden

namespace Promptbook

namespace Walk

/-- What a walk does to containers: it enters a list or dictionary, or puts a new value in a
numbered place of one. -/
inductive Move
  | enter (r : Ref)
  | write (r : Ref) (i : Nat) (old new : Value)
  deriving DecidableEq, Repr

namespace Move

def entered? : Move → Option Ref
  | enter r => some r
  | write .. => none

def written? : Move → Option (Ref × Nat)
  | enter _ => none
  | write r i _ _ => some (r, i)

def after (h : Heap) : Move → Heap
  | enter _ => h
  | write r i _ new => h.setSlot r i new

end Move

def entered (ms : List Move) : List Ref :=
  ms.filterMap Move.entered?

def written (ms : List Move) : List (Ref × Nat) :=
  ms.filterMap Move.written?

def replay (h : Heap) (ms : List Move) : Heap :=
  ms.foldl Move.after h

/-- Goes through the numbered places of a container and notes the moves. -/
def slotMoves (step : Value → Walk → Except Fault (Value × Walk × List Move)) (r : Ref) :
    List Nat → Walk → Except Fault (Walk × List Move)
  | [], w => .ok (w, [])
  | i :: is, w =>
    match (w.heap.get? r).bind fun node => node.slot? i with
    | none => slotMoves step r is w
    | some v => do
      let (v', w, ms) ← step v w
      let (w, ms') ← slotMoves step r is { w with heap := w.heap.setSlot r i v' }
      return (w, ms ++ .write r i v v' :: ms')

def movesWithin (values : Value) :
    Nat → Value → Walk → Except Fault (Value × Walk × List Move)
  | 0, _, _ => .error .tooDeep
  | n + 1, v, w =>
    match v.asText? with
    | some s => do
      let t ← w.heap.substitute values s
      return (.text t, w.note s, [])
    | none =>
      match v.asRef? with
      | none => .ok (v, w, [])
      | some r =>
        match w.heap.open? r with
        | none => .ok (v, w, [])
        | some node =>
          if r ∈ w.visited then .ok (v, w, [])
          else do
            let (w, ms) ← slotMoves (movesWithin values n) r (List.range node.slotCount)
              { w with visited := r :: w.visited }
            return (v, w, .enter r :: ms)

variable {h k : Heap} {values root v x v' : Value} {vs vs' : List Value} {r q : Ref} {node : Node}
  {w w' w'' : Walk} {ms ms' : List Move} {own own' : List (Ref × Nat)} {seen : List Ref} {n : Nat}
  {i : Nat} {is : List Nat} {s : String} {cause : Fault}
  {step : Value → Walk → Except Fault (Value × Walk)}
  {noted : Value → Walk → Except Fault (Value × Walk × List Move)}

theorem eachSlot_of_noted (hs : ∀ v w, (noted v w).map (fun x => (x.1, x.2.1)) = step v w)
    (is : List Nat) (w : Walk) :
    (slotMoves noted r is w).map Prod.fst = eachSlot step r is w := by
  induction is generalizing w with
  | nil => rfl
  | cons i is ih =>
    rw [slotMoves, eachSlot]
    cases (w.heap.get? r).bind fun node => node.slot? i with
    | none => exact ih w
    | some v =>
      simp only [← hs v w]
      cases noted v w with
      | error cause => rfl
      | ok x =>
        obtain ⟨v', w', ms⟩ := x
        have hrest := ih { w' with heap := w'.heap.setSlot r i v' }
        simp only [ok_bind, Except.map] at hrest ⊢
        rw [← hrest]
        cases slotMoves noted r is { w' with heap := w'.heap.setSlot r i v' } <;> rfl

/-- A walk that notes its moves is the walk that fills. -/
theorem fillWithin_of_moves (values : Value) (n : Nat) (v : Value) (w : Walk) :
    (movesWithin values n v w).map (fun x => (x.1, x.2.1)) = fillWithin values n v w := by
  induction n generalizing v w with
  | zero => rfl
  | succ n ih =>
    rw [movesWithin, fillWithin]
    cases hv : v.asText? with
    | some s =>
      simp only [Option.getD_some]
      cases w.heap.substitute values s <;> rfl
    | none =>
      cases v.asRef? with
      | none => rfl
      | some r =>
        simp only []
        cases w.heap.open? r with
        | none => rfl
        | some node =>
          by_cases hin : r ∈ w.visited
          · simp only [hin, ↓reduceIte]
            rfl
          · simp only [hin, ↓reduceIte, ← eachSlot_of_noted (fun v w => ih v w)]
            cases slotMoves (movesWithin values n) r (List.range node.slotCount)
              { w with visited := r :: w.visited } <;> rfl

/-- A value was kept, or a text was put in the place of a text. -/
structure Replaces (old new : Value) : Prop where
  text : new.asText?.isSome = old.asText?.isSome
  same : old.asText? = none → new = old

def Seen (h : Heap) (visited : List Ref) (v : Value) : Prop :=
  ∀ r node, v = .ref r → h.open? r = some node → r ∈ visited

/-- A heap in the middle of a walk from a value: what the walk cannot enter is as it was, and in the
rest only texts have changed. -/
structure Midway (h : Heap) (root : Value) (k : Heap) : Prop where
  retraces : h.Retraces k
  aside : ∀ r, ¬ h.Enters root r → k.get? r = h.get? r

/-- A replacement in a text that a walk from a value meets fails in the middle of the walk. -/
def Raises (h : Heap) (values root : Value) (cause : Fault) : Prop :=
  ∃ k s, Midway h root k ∧ h.Meets root s ∧ k.substitute values s = .error cause

/-- A walk in the middle of its way. What it has not visited is as it was. -/
structure Ahead (h : Heap) (root : Value) (w : Walk) : Prop where
  midway : Midway h root w.heap
  ahead : ∀ r, r ∉ w.visited → w.heap.get? r = h.get? r

/-- What the moves of a stretch of a walk are, past some values. The places in `own` belong to
containers that were entered before and are written on this stretch. -/
structure Course (h : Heap) (own : List (Ref × Nat)) (vs : List Value) (w w' : Walk)
    (ms : List Move) : Prop where
  heap : w'.heap = replay w.heap ms
  visited : w'.visited = (entered ms).reverse ++ w.visited
  fresh : ∀ r ∈ entered ms, r ∉ w.visited
  once : (entered ms).Nodup
  found : ∀ r ∈ entered ms, (∃ v ∈ vs, h.Enters v r) ∧
    ∃ node, h.open? r = some node ∧ ∀ x ∈ node.slots, Seen h w'.visited x
  seen : ∀ v ∈ vs, Seen h w'.visited v
  writtenOnce : (written ms).Nodup
  places : ∀ r i, (r, i) ∈ written ms ↔
    (r, i) ∈ own ∨ r ∈ entered ms ∧ ∃ x, (h.get? r).bind (·.slot? i) = some x
  replaces : ∀ r i old new, Move.write r i old new ∈ ms →
    (h.get? r).bind (·.slot? i) = some old ∧ Replaces old new

theorem Replaces.refl (v : Value) : Replaces v v :=
  ⟨rfl, fun _ => rfl⟩

theorem Replaces.of_text (hv : v.asText? = some s) (t : String) : Replaces v (.text t) := by
  refine ⟨by rw [hv]; rfl, fun hn => ?_⟩
  rw [hv] at hn
  cases hn

theorem Replaces.asRef? (hv : Replaces v v') : v'.asRef? = v.asRef? := by
  cases ht : v.asText? with
  | none => rw [hv.same ht]
  | some s =>
    have ht' := hv.text
    rw [ht, Option.isSome_some, Option.isSome_iff_exists] at ht'
    obtain ⟨t, ht'⟩ := ht'
    rw [Value.asRef?_of_asText? ht, Value.asRef?_of_asText? ht']

theorem Seen.mono {visited visited' : List Ref} (hv : Seen h visited v)
    (hsub : visited ⊆ visited') : Seen h visited' v :=
  fun r node he hn => hsub (hv r node he hn)

theorem seen_of_text (hv : v.asText? = some s) (visited : List Ref) : Seen h visited v := by
  intro r node he hn
  subst he
  cases hv

@[simp] theorem entered_append (ms ms' : List Move) :
    entered (ms ++ ms') = entered ms ++ entered ms' :=
  List.filterMap_append

@[simp] theorem written_append (ms ms' : List Move) :
    written (ms ++ ms') = written ms ++ written ms' :=
  List.filterMap_append

theorem replay_append (h : Heap) (ms ms' : List Move) :
    replay h (ms ++ ms') = replay (replay h ms) ms' :=
  List.foldl_append

theorem slot?_after (m : Move) (hm : m.written? ≠ some (r, i)) :
    ((m.after h).get? r).bind (·.slot? i) = (h.get? r).bind (·.slot? i) := by
  cases m with
  | enter q => rfl
  | write q j old new =>
    simp only [Move.after]
    by_cases hq : q = r
    · subst hq
      have hij : i ≠ j := by
        intro he
        subst he
        exact hm rfl
      cases hn : h.get? q with
      | none => simp only [Heap.setSlot, hn]
      | some node =>
        rw [Heap.get?_setSlot_self hn, Option.bind_some, Option.bind_some,
          Node.slot?_setSlot_of_ne hij]
    · rw [Heap.get?_setSlot_of_ne hq]

theorem slot?_replay (hr : (r, i) ∉ written ms) :
    ((replay h ms).get? r).bind (·.slot? i) = (h.get? r).bind (·.slot? i) := by
  induction ms generalizing h with
  | nil => rfl
  | cons m ms ih =>
    rw [written, List.mem_filterMap] at hr
    have hrest : (r, i) ∉ written ms := by
      intro hin
      obtain ⟨m', hm', he⟩ := List.mem_filterMap.1 hin
      exact hr ⟨m', List.mem_cons_of_mem m hm', he⟩
    exact (ih hrest).trans (slot?_after m fun he => hr ⟨m, List.mem_cons_self, he⟩)

theorem slot?_after_write {old new : Value} (hx : (h.get? r).bind (·.slot? i) = some x) :
    (((Move.write r i old new).after h).get? r).bind (·.slot? i) = some new := by
  obtain ⟨node, hn, hx⟩ := Option.bind_eq_some_iff.1 hx
  rw [Move.after, Heap.get?_setSlot_self hn]
  exact Node.slot?_setSlot_self hx

/-- A place that is written once holds afterwards what was written. -/
theorem slot?_replay_of_mem {old new : Value} (hms : (written ms).Nodup)
    (hx : (h.get? r).bind (·.slot? i) = some x) (hmem : Move.write r i old new ∈ ms) :
    ((replay h ms).get? r).bind (·.slot? i) = some new := by
  induction ms generalizing h x with
  | nil => cases hmem
  | cons m ms ih =>
    cases hw : m.written? with
    | none =>
      rw [written, List.filterMap_cons_none hw] at hms
      rcases List.mem_cons.1 hmem with rfl | hmem
      · cases hw
      · exact ih hms ((slot?_after m (by simp [hw])).trans hx) hmem
    | some p =>
      rw [written, List.filterMap_cons_some hw, List.nodup_cons] at hms
      rcases List.mem_cons.1 hmem with rfl | hmem
      · cases hw
        exact (slot?_replay hms.1).trans (slot?_after_write hx)
      · have hne : m.written? ≠ some (r, i) := by
          rintro he
          cases hw.symm.trans he
          exact hms.1 (List.mem_filterMap.2 ⟨_, hmem, rfl⟩)
        exact ih hms.2 ((slot?_after m hne).trans hx) hmem

namespace Course

variable (hp : Course h own vs w w' ms)
include hp

theorem mem_visited : r ∈ w'.visited ↔ r ∈ entered ms ∨ r ∈ w.visited := by
  rw [hp.visited, List.mem_append, List.mem_reverse]

theorem grown : w.visited ⊆ w'.visited :=
  fun _ hr => hp.mem_visited.2 (.inr hr)

theorem not_written (hr : r ∈ w.visited) (hi : (r, i) ∉ own) : (r, i) ∉ written ms := by
  intro hin
  cases (hp.places r i).1 hin with
  | inl hown => exact hi hown
  | inr hnew => exact hp.fresh r hnew.1 hr

theorem slot_kept (hr : r ∈ w.visited) (hi : (r, i) ∉ own) :
    (w'.heap.get? r).bind (·.slot? i) = (w.heap.get? r).bind (·.slot? i) := by
  rw [hp.heap]
  exact slot?_replay (hp.not_written hr hi)

theorem trans (hp' : Course h own' vs' w' w'' ms') (hown : ∀ p ∈ own, p.1 ∈ w.visited)
    (hown' : ∀ p ∈ own', p.1 ∈ w.visited) (hd : ∀ p ∈ own, p ∉ own') :
    Course h (own ++ own') (vs ++ vs') w w'' (ms ++ ms') where
  heap := by rw [hp'.heap, hp.heap, replay_append]
  visited := by
    rw [hp'.visited, hp.visited, entered_append, List.reverse_append, List.append_assoc]
  fresh r hr := by
    rw [entered_append, List.mem_append] at hr
    cases hr with
    | inl hr => exact hp.fresh r hr
    | inr hr => exact fun hin => hp'.fresh r hr (hp.grown hin)
  once := by
    rw [entered_append]
    refine List.nodup_append.2 ⟨hp.once, hp'.once, fun r hr q hq he => ?_⟩
    exact hp'.fresh q hq (hp.mem_visited.2 (.inl (he ▸ hr)))
  found r hr := by
    rw [entered_append, List.mem_append] at hr
    cases hr with
    | inl hr =>
      obtain ⟨⟨v, hv, he⟩, node, hn, hslots⟩ := hp.found r hr
      exact ⟨⟨v, List.mem_append_left _ hv, he⟩, node, hn,
        fun x hx => (hslots x hx).mono hp'.grown⟩
    | inr hr =>
      obtain ⟨⟨v, hv, he⟩, hnode⟩ := hp'.found r hr
      exact ⟨⟨v, List.mem_append_right _ hv, he⟩, hnode⟩
  seen v hv := by
    rw [List.mem_append] at hv
    cases hv with
    | inl hv => exact (hp.seen v hv).mono hp'.grown
    | inr hv => exact hp'.seen v hv
  writtenOnce := by
    rw [written_append]
    refine List.nodup_append.2 ⟨hp.writtenOnce, hp'.writtenOnce, ?_⟩
    rintro ⟨r, i⟩ hr _ hr' rfl
    -- No stretch enters what the other has entered, and what is its own was entered before both.
    rcases (hp.places r i).1 hr with hi | ⟨hr, -⟩ <;>
      rcases (hp'.places r i).1 hr' with hi' | ⟨hr', -⟩
    · exact hd _ hi hi'
    · exact hp'.fresh r hr' (hp.grown (hown _ hi))
    · exact hp.fresh r hr (hown' _ hi')
    · exact hp'.fresh r hr' (hp.mem_visited.2 (.inl hr))
  places r i := by
    rw [written_append, entered_append, List.mem_append, List.mem_append, List.mem_append,
      hp.places, hp'.places, or_and_right, or_or_or_comm]
  replaces r i old new hm := by
    rw [List.mem_append] at hm
    exact hm.elim (hp.replaces r i old new) (hp'.replaces r i old new)

end Course

theorem course_nil (hvs : ∀ v ∈ vs, Seen h w.visited v) (used : List String) :
    Course h [] vs w { w with used } [] where
  heap := rfl
  visited := rfl
  fresh := List.forall_mem_nil _
  once := .nil
  found := List.forall_mem_nil _
  seen := hvs
  writtenOnce := .nil
  places r i := by simp [written, entered]
  replaces _ _ _ _ hm := absurd hm List.not_mem_nil

theorem course_write (hx : (h.get? r).bind (·.slot? i) = some x) (hv : Replaces x v) :
    Course h [(r, i)] [] w { w with heap := w.heap.setSlot r i v } [.write r i x v] where
  heap := rfl
  visited := rfl
  fresh := List.forall_mem_nil _
  once := .nil
  found := List.forall_mem_nil _
  seen := List.forall_mem_nil _
  writtenOnce := List.nodup_singleton _
  places q j := by simp [written, entered, Move.written?, Move.entered?]
  replaces q j old new hm := by
    cases List.mem_singleton.1 hm
    exact ⟨hx, hv⟩

theorem Course.enter (ho : h.open? r = some node) (hr : r ∉ w.visited)
    (hp : Course h ((List.range node.slotCount).map (r, ·)) node.slots
      { w with visited := r :: w.visited } w' ms) :
    Course h [] [.ref r] w w' (.enter r :: ms) where
  heap := hp.heap
  visited := by
    rw [hp.visited]
    simp [entered, Move.entered?]
  fresh q hq := by
    rcases List.mem_cons.1 hq with rfl | hq
    · exact hr
    · exact fun hin => hp.fresh q hq (List.mem_cons_of_mem r hin)
  once := List.nodup_cons.2 ⟨fun hin => hp.fresh r hin List.mem_cons_self, hp.once⟩
  found q hq := by
    rcases List.mem_cons.1 hq with rfl | hq
    · exact ⟨⟨_, List.mem_singleton_self _, .refl h q⟩, node, ho, hp.seen⟩
    · obtain ⟨⟨x, hx, he⟩, hnode⟩ := hp.found q hq
      obtain ⟨i, hi⟩ := Node.mem_slots.1 hx
      exact ⟨⟨_, List.mem_singleton_self _, he.head (Heap.open?_eq_some.1 ho).1 hi⟩, hnode⟩
  seen v hv := by
    obtain rfl := List.mem_singleton.1 hv
    rintro _ _ ⟨⟩ _
    exact hp.grown List.mem_cons_self
  writtenOnce := hp.writtenOnce
  places q i := by
    have hslot : (r, i) ∈ (List.range node.slotCount).map (r, ·) ↔
        ∃ x, (h.get? r).bind (·.slot? i) = some x := by
      simp [(Heap.open?_eq_some.1 ho).1, Node.slot?_eq_slots, ← Node.length_slots,
        List.getElem?_eq_some_iff]
    have hplaces := hp.places q i
    simp only [written, entered, List.filterMap_cons, Move.written?, Move.entered?,
      List.mem_cons, List.not_mem_nil, false_or] at hplaces ⊢
    rw [hplaces, or_and_right]
    refine or_congr_left ⟨fun hin => ?_, fun hq => ?_⟩
    · obtain ⟨j, -, he⟩ := List.mem_map.1 hin
      cases he
      exact ⟨rfl, hslot.1 hin⟩
    · obtain ⟨rfl, hx⟩ := hq
      exact hslot.2 hx
  replaces q i old new hm := by
    cases hm with
    | tail _ hm => exact hp.replaces q i old new hm

theorem Course.slot (hp : Course h [] [x] w w' ms) (hn : h.get? r = some node)
    (hx : node.slot? i = some x) (hv : Replaces x v) (hr : r ∈ w.visited) (hi : i ∉ is)
    (hrest : Course h (is.map (r, ·)) (is.filterMap node.slot?)
      { w' with heap := w'.heap.setSlot r i v } w'' ms') :
    Course h ((i :: is).map (r, ·)) ((i :: is).filterMap node.slot?) w w''
      (ms ++ .write r i x v :: ms') := by
  have hslot : (h.get? r).bind (·.slot? i) = some x := by rw [hn, Option.bind_some, hx]
  have hr' := hp.grown hr
  have hnew : ∀ p ∈ [(r, i)], p ∉ is.map (r, ·) := by
    intro p hp hin
    obtain ⟨j, hj, heq⟩ := List.mem_map.1 hin
    cases List.mem_singleton.1 hp
    cases heq
    exact hi hj
  have hwritten := (course_write (w := w') hslot hv).trans hrest
    (List.forall_mem_singleton.2 hr') (List.forall_mem_map.2 fun _ _ => hr') hnew
  rw [List.filterMap_cons_some hx]
  exact hp.trans hwritten (List.forall_mem_nil _)
    (List.forall_mem_map (l := i :: is).2 fun _ _ => hr) (List.forall_mem_nil _)

def Does (h : Heap) (values root v : Value) (w : Walk) :
    Except Fault (Value × Walk × List Move) → Prop
  | .error cause => Raises h values root cause
  | .ok (v', w', ms) => Replaces v v' ∧ Ahead h root w' ∧ Course h [] [v] w w' ms

def DoesSlots (h : Heap) (values root : Value) (r : Ref) (node : Node) (is : List Nat) (w : Walk) :
    Except Fault (Walk × List Move) → Prop
  | .error cause => Raises h values root cause
  | .ok (w', ms) => Ahead h root w' ∧ Course h (is.map (r, ·)) (is.filterMap node.slot?) w w' ms

theorem Ahead.write (hw : Ahead h root w) (hr : r ∈ w.visited) (he : h.Enters root r)
    (hx : (w.heap.get? r).bind (·.slot? i) = some x) (hv : Replaces x v) :
    Ahead h root { w with heap := w.heap.setSlot r i v } := by
  obtain ⟨node, hn, hslot⟩ := Option.bind_eq_some_iff.1 hx
  refine ⟨⟨hw.midway.retraces.write hn hslot hv.asRef?, fun q hq => ?_⟩, fun q hq => ?_⟩
  · have hne : r ≠ q := by
      intro heq
      subst heq
      exact hq he
    exact (Heap.get?_setSlot_of_ne hne).trans (hw.midway.aside q hq)
  · have hne : r ≠ q := by
      intro heq
      subst heq
      exact hq hr
    exact (Heap.get?_setSlot_of_ne hne).trans (hw.ahead q hq)

theorem does_slotMoves (noted : Value → Walk → Except Fault (Value × Walk × List Move))
    (hn : h.get? r = some node) (he : h.Enters root r) (hw : Ahead h root w)
    (hr : r ∈ w.visited) (hseen : seen ⊆ w.visited) (his : is.Nodup)
    (hplaces : ∀ i ∈ is, ∃ x, node.slot? i = some x)
    (hsame : ∀ i ∈ is, (w.heap.get? r).bind (·.slot? i) = node.slot? i)
    (hstep : ∀ i x, node.slot? i = some x → ∀ w, Ahead h root w → seen ⊆ w.visited →
      Does h values root x w (noted x w)) :
    DoesSlots h values root r node is w (slotMoves noted r is w) := by
  induction is generalizing w with
  | nil => exact ⟨hw, course_nil (List.forall_mem_nil _) w.used⟩
  | cons i is ih =>
    rw [List.forall_mem_cons] at hplaces hsame
    obtain ⟨hi, his⟩ := List.nodup_cons.1 his
    obtain ⟨⟨x, hx⟩, hplaces⟩ := hplaces
    have hfirst := hstep i x hx w hw hseen
    rw [slotMoves, hsame.1, hx]
    simp only []
    cases hrun : noted x w with
    | error cause =>
      rw [hrun] at hfirst
      exact hfirst
    | ok p =>
      obtain ⟨v', w₁, ms₁⟩ := p
      rw [hrun] at hfirst
      obtain ⟨hv', hw₁, hp₁⟩ := hfirst
      have hr₁ : r ∈ w₁.visited := hp₁.grown hr
      have hkept : ∀ j ∈ i :: is, (w₁.heap.get? r).bind (·.slot? j) = node.slot? j := by
        intro j hj
        rw [hp₁.slot_kept hr List.not_mem_nil]
        rcases List.mem_cons.1 hj with rfl | hj
        · exact hsame.1
        · exact hsame.2 j hj
      rw [List.forall_mem_cons] at hkept
      have hw₂ := hw₁.write hr₁ he (hkept.1.trans hx) hv'
      have hrest := ih hw₂ hr₁ (fun q hq => hp₁.grown (hseen hq)) his hplaces fun j hj => by
        rw [← hkept.2 j hj]
        refine slot?_after (.write r i x v') fun heq => ?_
        cases heq
        exact hi hj
      simp only [ok_bind]
      cases hrun' : slotMoves noted r is { w₁ with heap := w₁.heap.setSlot r i v' } with
      | error cause =>
        rw [hrun'] at hrest
        exact hrest
      | ok p =>
        obtain ⟨w', ms'⟩ := p
        rw [hrun'] at hrest
        exact ⟨hrest.1, hp₁.slot hn hx hv' hr hi hrest.2⟩

theorem Ahead.enter (hw : Ahead h root w) (r : Ref) :
    Ahead h root { w with visited := r :: w.visited } :=
  ⟨hw.midway, fun q hq => hw.ahead q fun hmem => hq (List.mem_cons_of_mem r hmem)⟩

theorem Does.skip (values : Value) (hw : Ahead h root w) (hs : Seen h w.visited v) :
    Does h values root v w (.ok (v, w, [])) :=
  ⟨.refl v, hw, course_nil (List.forall_mem_singleton.2 hs) w.used⟩

theorem does_enter (noted : Value → Walk → Except Fault (Value × Walk × List Move))
    (ho : h.open? r = some node) (he : h.Enters root r) (hw : Ahead h root w)
    (hr : r ∉ w.visited) (hseen : seen ⊆ w.visited)
    (hstep : ∀ i x, node.slot? i = some x → ∀ w, Ahead h root w → r :: seen ⊆ w.visited →
      Does h values root x w (noted x w)) :
    Does h values root (.ref r) w (do
      let (w, ms) ← slotMoves noted r (List.range node.slotCount)
        { w with visited := r :: w.visited }
      return (.ref r, w, .enter r :: ms)) := by
  have hget := (Heap.open?_eq_some.1 ho).1
  have hplaces : ∀ i ∈ List.range node.slotCount, ∃ x, node.slot? i = some x := by
    intro i hi
    rw [List.mem_range, ← Node.length_slots] at hi
    exact ⟨_, (Node.slot?_eq_slots node i).trans (List.getElem?_eq_getElem hi)⟩
  have hslots := does_slotMoves noted hget he (hw.enter r) List.mem_cons_self
    (List.cons_subset_cons r hseen) List.nodup_range hplaces
    (fun i _ => by rw [hw.ahead r hr, hget, Option.bind_some]) hstep
  cases hrun : slotMoves noted r (List.range node.slotCount)
      { w with visited := r :: w.visited } with
  | error cause =>
    rw [hrun] at hslots
    exact hslots
  | ok p =>
    obtain ⟨w', ms⟩ := p
    rw [hrun] at hslots
    obtain ⟨hw', hp⟩ := hslots
    rw [Node.filterMap_slot?_range] at hp
    exact ⟨.refl _, hw', hp.enter ho hr⟩

/-- Past a value that it meets, a walk nested below a limit ends with a replacement that fails, or
it returns and its moves are those of a stretch past the value. -/
theorem does_movesWithin (values : Value) (hn : h.Shallow n seen v)
    (hv : ∃ is : List Nat, h.follow (is.map .slot) root = some v) (hw : Ahead h root w)
    (hseen : seen ⊆ w.visited) : Does h values root v w (movesWithin values n v w) := by
  induction n generalizing v w seen with
  | zero => exact hn.elim
  | succ n ih =>
    rw [movesWithin]
    cases ht : v.asText? with
    | some s =>
      simp only []
      obtain ⟨is, hv⟩ := hv
      cases hsub : w.heap.substitute values s with
      | error cause => exact ⟨w.heap, s, hw.midway, ⟨is, v, hv, ht⟩, hsub⟩
      | ok t =>
        exact ⟨.of_text ht t, ⟨hw.midway, hw.ahead⟩,
          course_nil (List.forall_mem_singleton.2 (seen_of_text ht _)) _⟩
    | none =>
      cases hr : v.asRef? with
      | none =>
        apply Does.skip values hw
        rintro r node rfl
        cases hr
      | some r =>
        obtain rfl := Value.asRef?_eq_some.1 hr
        simp only []
        by_cases hin : r ∈ w.visited
        · have hs : Seen h w.visited (.ref r) := by
            rintro _ _ ⟨⟩ _
            exact hin
          simp only [hin, ↓reduceIte]
          split <;> exact .skip values hw hs
        · have hopen : w.heap.open? r = h.open? r := by rw [Heap.open?, Heap.open?, hw.ahead r hin]
          simp only [hopen, hin, ↓reduceIte]
          cases ho : h.open? r with
          | none =>
            apply Does.skip values hw
            rintro _ node ⟨⟩ hnode
            rw [ho] at hnode
            cases hnode
          | some node =>
            apply does_enter (movesWithin values n) ho hv hw hin hseen
            intro i x hx w hw hs
            obtain ⟨is, hv⟩ := hv
            refine ih (hn r node rfl (fun hmem => hin (hseen hmem)) ho x
              (Node.mem_slots.2 ⟨i, hx⟩)) ⟨is ++ [i], ?_⟩ hw hs
            rw [List.map_append, Heap.follow_append, hv]
            exact Heap.follow_cons_eq_some.2
              ⟨r, node, x, rfl, (Heap.open?_eq_some.1 ho).1, hx, rfl⟩

/-- What is entered on the way past a value is all that can be entered from it. -/
theorem Course.mem_entered_iff {used : List String} (hp : Course h [] [v] ⟨h, used, []⟩ w ms) :
    r ∈ entered ms ↔ h.Enters v r ∧ ∃ node, h.open? r = some node := by
  have hvisited : ∀ q, q ∈ w.visited ↔ q ∈ entered ms := fun q => by simp [hp.mem_visited]
  constructor
  · intro hr
    obtain ⟨⟨u, hu, he⟩, node, hn, -⟩ := hp.found r hr
    obtain rfl := List.mem_singleton.1 hu
    exact ⟨he, node, hn⟩
  · rintro ⟨he, node, hn⟩
    refine he.induction (P := fun u => Seen h w.visited u → r ∈ entered ms) ?_ ?_
      (hp.seen v (List.mem_singleton_self v))
    · exact fun hs => (hvisited r).1 (hs r node rfl hn)
    · intro q node' i u hq hu _ ih hs
      have hopen : h.open? q = some node' :=
        Heap.open?_eq_some.2 ⟨hq, Node.isOpen_of_slot? hu⟩
      obtain ⟨-, node'', hn'', hslots⟩ := hp.found q ((hvisited q).1 (hs q node' rfl hopen))
      obtain rfl := Option.some.inj (hopen.symm.trans hn'')
      exact ih (hslots u (Node.mem_slots.2 ⟨i, hu⟩))

/-- A walk with nothing visited, from a value nested below its limit, ends with the failure of a
replacement in one of the texts it meets, or it returns. Then it has entered each list and
dictionary that can be entered from the value once and no others, and has written each of their
places once: a text where a text stood, and what stood there anywhere else. Those places hold what
was written, and all others what they held before. A list or dictionary comes back as itself. -/
theorem fillWithin_moves (values : Value) (used : List String) (hn : h.Shallow n [] v) :
    (∃ cause, fillWithin values n v ⟨h, used, []⟩ = .error cause ∧ Raises h values v cause) ∨
    ∃ v' w ms, movesWithin values n v ⟨h, used, []⟩ = .ok (v', w, ms) ∧
      fillWithin values n v ⟨h, used, []⟩ = .ok (v', w) ∧
      w.heap = replay h ms ∧
      (∀ r, v = .ref r → v' = .ref r) ∧
      (entered ms).Nodup ∧
      (∀ r, r ∈ entered ms ↔ h.Enters v r ∧ ∃ node, h.open? r = some node) ∧
      (written ms).Nodup ∧
      (∀ r i, (r, i) ∈ written ms ↔
        r ∈ entered ms ∧ ∃ x, (h.get? r).bind (·.slot? i) = some x) ∧
      (∀ r i old new, Move.write r i old new ∈ ms →
        (h.get? r).bind (·.slot? i) = some old ∧ Replaces old new ∧
          (w.heap.get? r).bind (·.slot? i) = some new) ∧
      ∀ r i, (r, i) ∉ written ms →
        (w.heap.get? r).bind (·.slot? i) = (h.get? r).bind (·.slot? i) := by
  have hdoes := does_movesWithin (w := ⟨h, used, []⟩) values hn ⟨[], rfl⟩
    ⟨⟨.refl h, fun _ _ => rfl⟩, fun _ _ => rfl⟩ (List.Subset.refl [])
  rw [← fillWithin_of_moves values n v ⟨h, used, []⟩]
  cases hrun : movesWithin values n v ⟨h, used, []⟩ with
  | error cause =>
    rw [hrun] at hdoes
    exact .inl ⟨cause, rfl, hdoes⟩
  | ok p =>
    obtain ⟨v', w, ms⟩ := p
    rw [hrun] at hdoes
    obtain ⟨hv, -, hp⟩ := hdoes
    refine .inr ⟨v', w, ms, rfl, rfl, hp.heap, ?_, hp.once, fun r => hp.mem_entered_iff,
      hp.writtenOnce, ?_, ?_, ?_⟩
    · rintro r rfl
      exact hv.same rfl
    · intro r i
      rw [hp.places]
      simp
    · intro r i old new hmem
      obtain ⟨hold, hreplaces⟩ := hp.replaces r i old new hmem
      refine ⟨hold, hreplaces, ?_⟩
      rw [hp.heap]
      exact slot?_replay_of_mem hp.writtenOnce hold hmem
    · intro r i hkept
      rw [hp.heap]
      exact slot?_replay hkept

/-- A list that holds itself and a dictionary twice, and variables beside them. -/
def ring : Heap where
  nodes := #[.list [.ref ⟨0⟩, .ref ⟨1⟩, .text "${x}", .ref ⟨1⟩],
    .dict [(.text "a", .text "b ${x}"), (.text "c", .int 3), (.text "d", .ref ⟨0⟩)],
    .dict [(.text "x", .text "v")]]

theorem ring_enters (hr : ring.Enters (.ref ⟨0⟩) r) : r.index < 2 := by
  have hstay : ∀ i < 2, ∀ node ∈ ring.get? ⟨i⟩, ∀ u ∈ node.slots, ∀ q ∈ u.asRef?,
      q.index < 2 := by decide
  refine hr.induction (P := fun u => (∀ q ∈ u.asRef?, q.index < 2) → r.index < 2) ?_ ?_ (by decide)
  · exact fun hlt => hlt r rfl
  · intro q node i u hq hu _ ih hlt
    exact ih (hstay q.index (hlt q rfl) node hq u (Node.mem_slots.2 ⟨i, hu⟩))

theorem ring_not_raises (cause : Fault) : ¬ Raises ring (.ref ⟨2⟩) (.ref ⟨0⟩) cause := by
  rintro ⟨k, s, hk, -, hfail⟩
  have hget : k.get? ⟨2⟩ = some (.dict [(.text "x", .text "v")]) :=
    hk.aside ⟨2⟩ fun he => absurd (ring_enters he) (by decide)
  have hm : k.mapping? (.ref ⟨2⟩) = some (.entries [(.text "x", .text "v")]) := by
    rw [Heap.mapping?, Heap.node?_ref, hget]
  have hpaths : ∀ path ∈ placeholderPaths s, k.Renders (.ref ⟨2⟩) path := fun path _ => by
    obtain ⟨o, ho, htexts⟩ := Heap.lookup_of_texts hm (by decide) path
    exact ⟨o, ho, fun v hv => Heap.render_of_text (htexts v hv)⟩
  obtain ⟨t, ht⟩ := Heap.substitute_total hpaths
  rw [ht] at hfail
  cases hfail

theorem fillWithin_moves_ring : ∃ w ms,
    fillWithin (.ref ⟨2⟩) ring.depths.fill (.ref ⟨0⟩) ⟨ring, [], []⟩ = .ok (.ref ⟨0⟩, w) ∧
      w.heap = replay ring ms ∧ (entered ms).Nodup ∧ (written ms).Nodup ∧
      ⟨1⟩ ∈ entered ms ∧ ⟨2⟩ ∉ entered ms ∧ (⟨1⟩, 2) ∈ written ms ∧
      .write ⟨1⟩ 0 (.text "b ${x}") (.text "b v") ∈ ms ∧
      w.heap.get? ⟨1⟩ =
        some (.dict [(.text "a", .text "b v"), (.text "c", .int 3), (.text "d", .ref ⟨0⟩)]) := by
  have hn : ring.Shallow ring.depths.fill [] (.ref ⟨0⟩) := Heap.shallow_of_size_lt (by decide)
  rcases fillWithin_moves (.ref ⟨2⟩) [] hn with ⟨cause, -, hfail⟩ |
    ⟨v', w, ms, -, hrun, hheap, hself, honce, hentered, hwritten, hplaces, hvalues, -⟩
  · exact absurd hfail (ring_not_raises cause)
  · cases hself ⟨0⟩ rfl
    have hone : ⟨1⟩ ∈ entered ms :=
      (hentered ⟨1⟩).2 ⟨.head (i := 1) rfl rfl (.refl ring ⟨1⟩), _, rfl⟩
    have hfilled : (fillWithin (.ref ⟨2⟩) ring.depths.fill (.ref ⟨0⟩) ⟨ring, [], []⟩).map
        (fun p => p.2.heap.get? ⟨1⟩) = .ok (some (.dict
          [(.text "a", .text "b v"), (.text "c", .int 3), (.text "d", .ref ⟨0⟩)])) := by
      decide +kernel
    rw [hrun] at hfilled
    have hnode : w.heap.get? ⟨1⟩ = _ := Except.ok.inj hfilled
    refine ⟨w, ms, hrun, hheap, honce, hwritten, hone, fun htwo => ?_, ?_, ?_, hnode⟩
    · exact absurd (ring_enters ((hentered ⟨2⟩).1 htwo).1) (by decide)
    · exact (hplaces ⟨1⟩ 2).2 ⟨hone, _, rfl⟩
    · obtain ⟨m, hm, hplace⟩ := List.mem_filterMap.1 ((hplaces ⟨1⟩ 0).2 ⟨hone, _, rfl⟩)
      cases m with
      | enter r => cases hplace
      | write r i old new =>
        cases hplace
        obtain ⟨hold, -, hnew⟩ := hvalues ⟨1⟩ 0 old new hm
        rw [hnode] at hnew
        cases hold
        cases hnew
        exact hm

end Walk

end Promptbook
